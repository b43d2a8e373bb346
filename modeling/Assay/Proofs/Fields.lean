import Assay.Proofs.References
/-!
# Fields of one name

Compilation refuses an object that declares a name twice, so no tree of a validator that there is holds one
(`Validator.Compiled.distinctFields`): not its root, not a definition of its scope, and not the root of a validator that
was compiled before and stands inside.  Then the first field of a name, by which normal forms go, is the only one.
-/
namespace Assay

namespace Tree

mutual

/-- Whether no object inside the tree has two fields of one name. -/
def distinctFields : Tree → Bool
  | leaf _ => true
  | object fields _ => decide (fields.map (·.name)).Nodup && distinctFieldsIn fields
  | array t => distinctFields t
  | tuple ts => distinctFieldsEach ts

def distinctFieldsIn : List Field → Bool
  | [] => true
  | ⟨_, _, t⟩ :: fields => distinctFields t && distinctFieldsIn fields

def distinctFieldsEach : List Tree → Bool
  | [] => true
  | t :: ts => distinctFields t && distinctFieldsEach ts

end

theorem distinctFieldsIn_iff : ∀ {fields : List Field},
    distinctFieldsIn fields = true ↔ ∀ f ∈ fields, f.node.distinctFields = true
  | [] => by simp [distinctFieldsIn]
  | ⟨_, _, t⟩ :: fields => by rw [distinctFieldsIn, Bool.and_eq_true, distinctFieldsIn_iff, List.forall_mem_cons]

theorem distinctFieldsEach_iff : ∀ {ts : List Tree},
    distinctFieldsEach ts = true ↔ ∀ t ∈ ts, t.distinctFields = true
  | [] => by simp [distinctFieldsEach]
  | t :: ts => by rw [distinctFieldsEach, Bool.and_eq_true, distinctFieldsEach_iff, List.forall_mem_cons]

theorem distinctFields_object {fields : List Field} {policy : Policy} :
    (object fields policy).distinctFields = true ↔
      (fields.map (·.name)).Nodup ∧ ∀ f ∈ fields, f.node.distinctFields = true := by
  rw [distinctFields, Bool.and_eq_true, decide_eq_true_iff, distinctFieldsIn_iff]

theorem distinctFields_tuple {ts : List Tree} :
    (tuple ts).distinctFields = true ↔ ∀ t ∈ ts, t.distinctFields = true := by
  rw [distinctFields, distinctFieldsEach_iff]

theorem distinctFields_splitOptional (t : Tree) : t.splitOptional.1.distinctFields = t.distinctFields := by
  cases t <;> rfl

end Tree

namespace Description

variable {isDefined : String → Bool} {policy : Policy}

mutual

/-- **A description becomes a tree without fields of one name**, as the validators inside it are such trees. -/
theorem Compiles.distinctFields : ∀ {d : Description} {t : Tree}, Compiles isDefined policy d t →
    (∀ v ∈ d.embedded, v.root.distinctFields = true) → t.distinctFields = true
  | _, _, .expression _, _ => rfl
  | _, _, .constraint _ _, _ => rfl
  | _, _, .object hf, he => Tree.distinctFields_object.2 ⟨hf.nodup, hf.distinctFields he⟩
  | _, _, .array ht _, he => ht.distinctFields he
  | _, _, .tuple hts, he => Tree.distinctFields_tuple.2 (hts.distinctFields he)
  | _, _, .compiled _, he => he _ List.mem_cons_self

theorem CompilesFields.distinctFields : ∀ {declared : List String} {fields : List FieldDescription}
    {trees : List Field}, CompilesFields isDefined policy declared fields trees →
      (∀ v ∈ embeddedFields fields, v.root.distinctFields = true) → ∀ f ∈ trees, f.node.distinctFields = true
  | _, _, _, .nil _, _ => fun _ hm => nomatch hm
  | _, _, _, @CompilesFields.cons _ _ _ _ _ _ t _ _ ht _ hts, he => by
    rw [embeddedFields] at he
    refine List.forall_mem_cons.2 ⟨?_, hts.distinctFields fun v hv => he v (List.mem_append_right _ hv)⟩
    exact t.distinctFields_splitOptional.trans (ht.distinctFields fun v hv => he v (List.mem_append_left _ hv))

theorem CompilesEach.distinctFields : ∀ {items : List Description} {trees : List Tree},
    CompilesEach isDefined policy items trees → (∀ v ∈ embeddedEach items, v.root.distinctFields = true) →
      ∀ t ∈ trees, t.distinctFields = true
  | _, _, .nil, _ => fun _ hm => nomatch hm
  | _, _, .cons ht _ hts, he => by
    rw [embeddedEach] at he
    exact List.forall_mem_cons.2 ⟨ht.distinctFields fun v hv => he v (List.mem_append_left _ hv),
      hts.distinctFields fun v hv => he v (List.mem_append_right _ hv)⟩

end

end Description

/-- No definition holds an object with two fields of one name. -/
def Definitions.DistinctFields (defs : Definitions) : Prop :=
  ∀ name t, defs.lookup name = some t → t.distinctFields = true

namespace Validator

/-- Neither the root nor a definition holds an object with two fields of one name. -/
structure DistinctFields (v : Validator) : Prop where
  root : v.root.distinctFields = true
  scope : v.scope.DistinctFields

/-- **No validator that there is has two fields of one name.** -/
theorem Compiled.distinctFields {v : Validator} (h : v.Compiled) : v.DistinctFields := by
  obtain ⟨hroot, hscope⟩ := h.trees fun ht he => ht.distinctFields he
  exact ⟨hroot, hscope⟩

end Validator

end Assay
