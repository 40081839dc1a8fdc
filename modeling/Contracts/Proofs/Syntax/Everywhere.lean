import Contracts.Directive.Insertion
import Contracts.Proofs.Syntax.Copying

/-!
# Properties of all nodes of a tree

`Tree.Everywhere P t` says that `P` holds of the tree `t` and of every tree in
it. It passes from the children to the node and back (`everywhere_node`), and so
it can be read off the code that a pass makes: a path of names is made of
references only, and the statement of a directive of plain productions, none of
which is a block, a function or a site of one.
-/

namespace Contracts

/-- The productions that paths of names are made of. -/
def Form.isReference : Form → Bool
  | .member | .name _ | .identifier _ => true
  | _ => false

/-- The productions that the statements of directives are made of. -/
def Form.isPlain : Form → Bool
  | .expressionStatement | .call | .literal _ _ | .object | .property => true
  | f => f.isReference

theorem Form.isPlain_of_isReference {f : Form} (h : f.isReference = true) : f.isPlain = true := by
  cases f with
  | member => rfl
  | name text => rfl
  | identifier text => rfl
  | _ => exact absurd h (by simp [isReference])

theorem Form.isPassive_of_isPlain {f : Form} (h : f.isPlain = true) : f.isPassive = true := by
  cases f with
  | block isStatement => exact absurd h (by simp [isPlain, isReference])
  | functionDeclaration m => exact absurd h (by simp [isPlain, isReference])
  | variableStatement kind => exact absurd h (by simp [isPlain, isReference])
  | forStatement => exact absurd h (by simp [isPlain, isReference])
  | returnStatement => exact absurd h (by simp [isPlain, isReference])
  | _ => rfl

namespace Tree

/-- The property `P` holds of a tree and of all trees in it. -/
def Everywhere (P : Tree → Prop) (t : Tree) : Prop :=
  ∀ n ∈ t.nodes, P n

theorem everywhere_node {P : Tree → Prop} {f : Form} {s : Span} {cs : List Tree} :
    (node f s cs).Everywhere P ↔ P (node f s cs) ∧ ∀ c ∈ cs, c.Everywhere P := by
  simp only [Everywhere, nodes_node, List.forall_mem_cons, List.mem_flatMap,
    forall_exists_index, and_imp]
  exact and_congr_right fun _ =>
    ⟨fun h c hc n hn => h n c hc hn, fun h n c hc hn => h c hc n hn⟩

theorem Everywhere.imp {P Q : Tree → Prop} (h : ∀ n, P n → Q n) {t : Tree} (ht : t.Everywhere P) :
    t.Everywhere Q :=
  fun n hn => h n (ht n hn)

end Tree

namespace Build

theorem everywhere_identifier (text : String) :
    (identifier text).Everywhere fun n => n.form.isReference = true :=
  Tree.everywhere_node.mpr ⟨rfl, by simp⟩

theorem everywhere_member {object : Tree}
    (h : object.Everywhere fun n => n.form.isReference = true) (property : String) :
    (member object property).Everywhere fun n => n.form.isReference = true := by
  have hname : (name property).Everywhere fun n => n.form.isReference = true :=
    Tree.everywhere_node.mpr ⟨rfl, by simp⟩
  refine Tree.everywhere_node.mpr ⟨rfl, ?_⟩
  exact List.forall_mem_cons.mpr ⟨h, List.forall_mem_singleton.mpr hname⟩

theorem everywhere_lookup (path : String) :
    (lookup path).Everywhere fun n => n.form.isReference = true := by
  have hrest : ∀ (rest : List String) (object : Tree),
      object.Everywhere (fun n => n.form.isReference = true) →
        (rest.foldl member object).Everywhere fun n => n.form.isReference = true := by
    intro rest
    induction rest with
    | nil => exact fun _ h => h
    | cons property rest ih => exact fun object h => ih _ (everywhere_member h property)
  rw [lookup]
  split
  next => exact everywhere_identifier ""
  next head rest _ => exact hrest rest _ (everywhere_identifier head)

theorem everywhere_string (text : String) :
    (string text).Everywhere fun n => n.form.isPlain = true :=
  Tree.everywhere_node.mpr ⟨rfl, by simp⟩

theorem everywhere_properties (fields : List (String × String)) :
    ∀ t ∈ properties (fields.map fun (k, text) => (k, .string text)),
      t.Everywhere fun n => n.form.isPlain = true := by
  induction fields with
  | nil => simp [properties]
  | cons field fields ih =>
      obtain ⟨key, text⟩ := field
      rw [List.map_cons, properties, List.forall_mem_cons]
      refine ⟨Tree.everywhere_node.mpr ⟨rfl, ?_⟩, ih⟩
      exact List.forall_mem_cons.mpr
        ⟨everywhere_string key, List.forall_mem_singleton.mpr (everywhere_string text)⟩

end Build

namespace Directive

theorem everywhere_arguments (kind : DirectiveKind) :
    ∀ t ∈ kind.arguments, t.Everywhere fun n => n.form.isPlain = true := by
  cases kind with
  | synonym name definition =>
      exact List.forall_mem_cons.mpr ⟨Build.everywhere_string name,
        List.forall_mem_singleton.mpr (Build.everywhere_string definition)⟩
  | instances name =>
      have hname : (Build.identifier name).Everywhere fun n => n.form.isPlain = true :=
        (Build.everywhere_identifier name).imp fun _ => Form.isPlain_of_isReference
      exact List.forall_mem_cons.mpr
        ⟨Build.everywhere_string name, List.forall_mem_singleton.mpr hname⟩
  | choice name fields =>
      exact List.forall_mem_cons.mpr ⟨Build.everywhere_string name,
        List.forall_mem_singleton.mpr
          (Tree.everywhere_node.mpr ⟨rfl, Build.everywhere_properties fields⟩)⟩

/-- The statement of a directive is made of plain productions. -/
theorem everywhere_statement (d : Directive) (checker : String) :
    (d.statement checker).Everywhere fun n => n.form.isPlain = true := by
  have hmethod : (Build.member (Build.lookup checker) d.kind.method).Everywhere
      fun n => n.form.isPlain = true :=
    (Build.everywhere_member (Build.everywhere_lookup checker) _).imp
      fun _ => Form.isPlain_of_isReference
  have hcall : (Build.call (Build.member (Build.lookup checker) d.kind.method)
      d.kind.arguments).Everywhere fun n => n.form.isPlain = true :=
    Tree.everywhere_node.mpr
      ⟨rfl, List.forall_mem_cons.mpr ⟨hmethod, everywhere_arguments d.kind⟩⟩
  exact Tree.everywhere_node.mpr ⟨rfl, List.forall_mem_singleton.mpr hcall⟩

end Directive

end Contracts
