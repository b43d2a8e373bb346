import Assay.Proofs.Normalization
import Assay.Proofs.References
/-!
# Stripping and rejecting

One description compiled to strip undeclared keys and compiled to reject them: what the first validator makes of a value
the second allows (`Validator.allows_stripped`), as long as no union refers to a definition with an object and no
integral union has cut a fraction.  Where objects stand in a tree their keys are stripped; a union only decides, and
returns the objects that its references allow with all their keys (`union_keeps_strays`).
-/
namespace Assay

namespace Tree

mutual

/-- Whether there is an object in the tree itself. -/
def hasObject : Tree → Bool
  | leaf _ => false
  | object _ _ => true
  | array t => hasObject t
  | tuple ts => hasObjectAny ts

def hasObjectAny : List Tree → Bool
  | [] => false
  | t :: ts => hasObject t || hasObjectAny ts

end

end Tree

namespace Description

mutual

/-- Whether there are neither policies of objects nor compiled validators in the description. -/
def isPlain : Description → Bool
  | expression _ => true
  | constraint _ => true
  | object fields own => own.isNone && isPlainFields fields
  | array item => isPlain item
  | tuple items => isPlainEach items
  | compiled _ => false

def isPlainFields : List FieldDescription → Bool
  | [] => true
  | ⟨_, d, _⟩ :: fields => isPlain d && isPlainFields fields

def isPlainEach : List Description → Bool
  | [] => true
  | d :: items => isPlain d && isPlainEach items

end

variable {isDefined : String → Bool} {policy policy' : Policy}

mutual

/-- Without objects the policy makes no difference. -/
theorem Compiles.eq_of_not_hasObject : ∀ {d : Description} {t t' : Tree}, Compiles isDefined policy d t →
    Compiles isDefined policy' d t' → t.hasObject = false → t' = t
  | _, _, _, .expression hp, .expression hp', _ => by
    cases hp.symm.trans hp'
    rfl
  | _, _, _, .constraint _ _, .constraint _ _, _ => rfl
  | _, _, _, .object _, .object _, h => by cases h
  | _, _, _, .array ht _, .array ht' _, h => by rw [ht.eq_of_not_hasObject ht' h]
  | _, _, _, .tuple hts, .tuple hts', h => by rw [hts.eq_of_not_hasObjectAny hts' h]
  | _, _, _, .compiled _, .compiled _, _ => rfl

theorem CompilesEach.eq_of_not_hasObjectAny : ∀ {items : List Description} {ts ts' : List Tree},
    CompilesEach isDefined policy items ts → CompilesEach isDefined policy' items ts' →
      Tree.hasObjectAny ts = false → ts' = ts
  | _, _, _, .nil, .nil, _ => rfl
  | _, _, _, .cons ht _ hts, .cons ht' _ hts', h => by
    rw [Tree.hasObjectAny, Bool.or_eq_false_iff] at h
    rw [ht.eq_of_not_hasObject ht' h.1, hts.eq_of_not_hasObjectAny hts' h.2]

end

/-- The trees of one description are the same leaf, or neither is one. -/
theorem Compiles.leaf_or {d : Description} {t t' : Tree} (h : Compiles isDefined policy d t)
    (h' : Compiles isDefined policy' d t') :
      (∃ c, t = .leaf c ∧ t' = .leaf c) ∨ t.splitOptional = (t, false) ∧ t'.splitOptional = (t', false) := by
  cases h with
  | expression hp =>
    cases h' with
    | expression hp' =>
      cases hp.symm.trans hp'
      exact Or.inl ⟨_, rfl, rfl⟩
  | constraint _ _ => cases h'; exact Or.inl ⟨_, rfl, rfl⟩
  | @compiled v _ =>
    cases h'
    cases hv : v.root with
    | leaf c => exact Or.inl ⟨c, rfl, rfl⟩
    | _ => exact Or.inr ⟨rfl, rfl⟩
  | _ => cases h'; exact Or.inr ⟨rfl, rfl⟩

end Description

namespace Definitions

/-- A name leads to an object: its definition has one, or refers to a name that does. -/
inductive LeadsToObject (defs : Definitions) : String → Prop
  | here {name : String} {t : Tree} : defs.lookup name = some t → t.hasObject = true → LeadsToObject defs name
  | next {name other : String} {t : Tree} :
    defs.lookup name = some t → other ∈ t.references → LeadsToObject defs other → LeadsToObject defs name

theorem not_leadsToObject_nil (name : String) : ¬ LeadsToObject [] name
  | .here hl _ => nomatch hl
  | .next hl _ _ => nomatch hl

/-- The definitions are of plain descriptions, under the one policy and under the other. -/
def Twice (isDefined : String → Bool) (policy policy' : Policy) (defs defs' : Definitions) : Prop :=
  ∀ name, Option.Rel (fun t t' => ∃ d : Description, d.isPlain = true ∧ d.Compiles isDefined policy t ∧
    d.Compiles isDefined policy' t') (defs.lookup name) (defs'.lookup name)

variable {isDefined : String → Bool} {policy policy' : Policy} {defs defs' : Definitions}

theorem Twice.lookup (h : Twice isDefined policy policy' defs defs') (name : String) :
    (defs.lookup name = none ∧ defs'.lookup name = none) ∨
      ∃ t t' d, defs.lookup name = some t ∧ defs'.lookup name = some t' ∧ Description.isPlain d = true ∧
        d.Compiles isDefined policy t ∧ d.Compiles isDefined policy' t' := by
  have hr := h name
  generalize defs.lookup name = found at hr ⊢
  generalize defs'.lookup name = found' at hr ⊢
  cases hr with
  | none => exact Or.inl ⟨rfl, rfl⟩
  | some hd =>
    obtain ⟨d, hp, ht, ht'⟩ := hd
    exact Or.inr ⟨_, _, d, rfl, rfl, hp, ht, ht'⟩

/-- What leads to no object is decided alike under both policies. -/
theorem Twice.allows_eq (h : Twice isDefined policy policy' defs defs') : ∀ (budget : Nat) (name : String),
    ¬ defs.LeadsToObject name → defs.allows budget name = defs'.allows budget name
  | 0, _, _ => rfl
  | budget + 1, name, hn => by
    funext v
    rw [allows, allows]
    rcases h.lookup name with ⟨hl, hl'⟩ | ⟨t, t', d, hl, hl', -, ht, ht'⟩
    · rw [hl, hl']
    · have ho : t.hasObject = false := Bool.eq_false_iff.2 fun ho => hn (.here hl ho)
      rw [hl, hl', ht.eq_of_not_hasObject ht' ho]
      exact t.allows_congr_of_references (fun other hm => h.allows_eq budget other fun hlo => hn (.next hl hm hlo)) v

end Definitions

section Passes

variable {defs defs' : Definitions} {root : Tree} {x₀ : Json} {allow allow' : String → Json → Bool}
  {follow : String → Json → Json} {isDefined : String → Bool}

/-- The normal form of an allowed part of `x₀`, where `t` checks it, is allowed by the other decision. -/
def Passes (defs : Definitions) (root : Tree) (x₀ : Json) (t : Tree) (allows : Json → Bool) (normalize : Json → Json)
    (allows' : Json → Bool) : Prop :=
  ∀ p v, Tree.Meets defs root x₀ p t v → allows v = true → allows' (normalize v) = true

/-- What references and unions normalize passes them. -/
structure LeavesPass (defs : Definitions) (root : Tree) (x₀ : Json) (allow : String → Json → Bool)
    (follow : String → Json → Json) (allow' : String → Json → Bool) : Prop where
  reference (name : String) : Passes defs root x₀ (.leaf (.reference name)) (allow name) (follow name) (allow' name)
  union (cs : List Constraint) : Passes defs root x₀ (.leaf (.union cs)) ((Constraint.union cs).allows allow)
    ((Constraint.union cs).normalize follow) ((Constraint.union cs).allows allow')

namespace Constraint

mutual

/-- What a constraint normalizes passes it, as for its references and its unions. -/
theorem passes (hl : LeavesPass defs root x₀ allow follow allow') : ∀ (c : Constraint),
    Passes defs root x₀ (.leaf c) (c.allows allow) (c.normalize follow) (c.allows allow')
  | reference name, p, v, hm, h => by
    rw [normalize, allows]
    exact hl.reference name p v hm (by rwa [allows] at h)
  | union cs, p, v, hm, h => hl.union cs p v hm h
  | optional c, p, v, hm, h => by
    rw [normalize, allows]
    exact passes hl c p v hm.inner (by rwa [allows] at h)
  | format f, _, v, _, h => by
    rw [normalize, allows]
    rwa [allows] at h
  | literal l, _, v, _, h => by
    rw [normalize, allows]
    rwa [allows] at h
  | kind k, _, v, _, h => by
    rw [allows] at h
    rw [normalize, allows]
    split
    · rename_i hk
      cases (beq_iff_eq.1 hk : k = .integer)
      rwa [Json.asInteger_congr (Kind.whole_of_admits h) fun _ _ hs => Kind.admits_of_same hs .integer]
    · exact h
  | range k min max, _, v, _, h => by
    rw [allows] at h
    rw [normalize, allows]
    split
    · rename_i hk
      cases (beq_iff_eq.1 hk : k = .integer)
      rwa [Json.asInteger_congr (Kind.whole_of_admitsWithin h) fun _ _ hs =>
        Kind.admitsWithin_of_same hs .integer min max]
    · exact h
  | array c, p, v, hm, h => by
    cases v with
    | array items =>
      rw [allows, List.all_eq_true] at h
      rw [normalize, allows, List.all_eq_true, List.forall_mem_map]
      intro x hx
      obtain ⟨i, hi⟩ := List.mem_iff_getElem?.1 hx
      exact passes hl c _ x (hm.leafItem hi) (h x hx)
    | _ => simp [allows] at h
  | tuple cs, p, v, hm, h => by
    cases v with
    | array items =>
      rw [allows] at h
      obtain ⟨hlen, h⟩ := allowsEach_iff.1 h
      rw [normalize, allows]
      refine allowsEach_iff.2 ⟨by rw [length_normalizeEach, hlen], fun i c y hci hy => ?_⟩
      obtain ⟨x, hx⟩ := exists_getElem? hlen hci
      rw [getElem?_normalizeEach hci hx] at hy
      cases hy
      exact passes_of_mem hl cs c (List.mem_of_getElem? hci) _ x (hm.leafPlace hci hx) (h i c x hci hx)
    | _ => simp [allows] at h

theorem passes_of_mem (hl : LeavesPass defs root x₀ allow follow allow') : ∀ (cs : List Constraint), ∀ c ∈ cs,
    Passes defs root x₀ (.leaf c) (c.allows allow) (c.normalize follow) (c.allows allow')
  | d :: cs, c, hc => by
    rcases List.mem_cons.1 hc with hc | hc
    · rw [hc]
      exact passes hl d
    · exact passes_of_mem hl cs c hc

end

end Constraint

namespace Description

mutual

/-- **What the tree that strips makes of a value passes the tree that rejects**, as for their references and unions. -/
theorem Compiles.passes (hl : LeavesPass defs root x₀ allow follow allow') :
    ∀ {d : Description} {t t' : Tree}, Compiles isDefined .strip d t → Compiles isDefined .reject d t' →
      d.isPlain = true → Passes defs root x₀ t (t.allows allow) (t.normalize follow) (t'.allows allow')
  | _, _, _, .expression hp, .expression hp', _ => by
    cases hp.symm.trans hp'
    exact Constraint.passes hl _
  | _, _, _, .constraint _ _, .constraint _ _, _ => Constraint.passes hl _
  | _, _, _, @Compiles.object _ _ fields own trees hts, @Compiles.object _ _ _ _ trees' hts', hp => by
    rw [isPlain, Bool.and_eq_true, Option.isNone_iff_eq_none] at hp
    obtain ⟨rfl, hp⟩ := hp
    intro p v hm h
    cases v with
    | object entries =>
      rw [Tree.allows, Bool.and_eq_true] at h
      obtain ⟨hpresent, habsent⟩ := Tree.allowsFields_iff.1 h.1
      have hrel := hts.passes hl hts' hp
      rw [Tree.normalize_object, Tree.allows, Bool.and_eq_true]
      refine ⟨Tree.allowsFields_iff.2 ⟨fun f' hf' y hy => ?_, fun f' hf' hy => ?_⟩, ?_⟩
      · obtain ⟨f, hmem, hname, -, hpass⟩ := hrel f' hf'
        have hfind := find?_of_mem hts.nodup hmem
        rw [← hname, Tree.lookup_normalizeEntries hfind] at hy
        obtain ⟨x, hx, rfl⟩ := Option.map_eq_some_iff.1 hy
        exact hpass _ x (hm.field hfind hx) (hpresent f hmem x hx)
      · obtain ⟨f, hmem, hname, hopt, -⟩ := hrel f' hf'
        rw [← hname, Tree.lookup_normalizeEntries (find?_of_mem hts.nodup hmem), Option.map_eq_none_iff] at hy
        rw [← hopt]
        exact habsent f hmem hy
      · rw [Bool.or_eq_true, List.all_eq_true]
        refine Or.inr fun e he => hts'.declares_iff.2 (hts.declares_iff.1 ?_)
        exact Tree.declares_of_mem_normalizeEntries he
    | _ => simp [Tree.allows] at h
  | _, _, _, .array ht _, .array ht' _, hp => by
    intro p v hm h
    cases v with
    | array items =>
      rw [Tree.allows, List.all_eq_true] at h
      rw [Tree.normalize, Tree.allows, List.all_eq_true, List.forall_mem_map]
      intro x hx
      obtain ⟨i, hi⟩ := List.mem_iff_getElem?.1 hx
      exact ht.passes hl ht' hp _ x (hm.item hi) (h x hx)
    | _ => simp [Tree.allows] at h
  | _, _, _, @Compiles.tuple _ _ _ ts hts, @Compiles.tuple _ _ _ ts' hts', hp => by
    intro p v hm h
    cases v with
    | array items =>
      rw [Tree.allows] at h
      obtain ⟨hlen, h⟩ := Tree.allowsEach_iff.1 h
      obtain ⟨hlen', hpass⟩ := hts.passes hl hts' hp
      rw [Tree.normalize, Tree.allows]
      refine Tree.allowsEach_iff.2 ⟨by rw [Tree.length_normalizeEach, ← hlen, hlen'], fun i t' y hti' hy => ?_⟩
      obtain ⟨t, hti⟩ := exists_getElem? hlen'.symm hti'
      obtain ⟨x, hx⟩ := exists_getElem? hlen hti
      rw [Tree.getElem?_normalizeEach hti hx] at hy
      cases hy
      exact hpass i t t' hti hti' _ x (hm.place hti hx) (h i t x hti hx)
    | _ => simp [Tree.allows] at h
  | _, _, _, .compiled _, .compiled _, hp => by cases hp

theorem CompilesFields.passes (hl : LeavesPass defs root x₀ allow follow allow') :
    ∀ {declared declared' : List String} {fields : List FieldDescription} {trees trees' : List Field},
      CompilesFields isDefined .strip declared fields trees →
        CompilesFields isDefined .reject declared' fields trees' → isPlainFields fields = true →
          ∀ f' ∈ trees', ∃ f ∈ trees, f.name = f'.name ∧ f.optional = f'.optional ∧
            Passes defs root x₀ f.node (f.node.allows allow) (f.node.normalize follow) (f'.node.allows allow')
  | _, _, _, _, _, .nil _, .nil _, _, _, hm => by cases hm
  | _, _, _, _, _, .cons ht _ hts, .cons ht' _ hts', hp, f', hm => by
    rw [isPlainFields, Bool.and_eq_true] at hp
    rcases List.mem_cons.1 hm with rfl | hm
    · refine ⟨_, List.mem_cons_self, rfl, ?_⟩
      rcases ht.leaf_or ht' with ⟨c, rfl, rfl⟩ | ⟨hs, hs'⟩
      · exact ⟨rfl, Constraint.passes hl c.splitOptional.1⟩
      · rw [hs, hs']
        exact ⟨rfl, ht.passes hl ht' hp.1⟩
    · obtain ⟨f, hm, h⟩ := hts.passes hl hts' hp.2 f' hm
      exact ⟨f, List.mem_cons_of_mem _ hm, h⟩

theorem CompilesEach.passes (hl : LeavesPass defs root x₀ allow follow allow') :
    ∀ {items : List Description} {ts ts' : List Tree}, CompilesEach isDefined .strip items ts →
      CompilesEach isDefined .reject items ts' → isPlainEach items = true → ts.length = ts'.length ∧
        ∀ (i : Nat) (t t' : Tree), ts[i]? = some t → ts'[i]? = some t' →
          Passes defs root x₀ t (t.allows allow) (t.normalize follow) (t'.allows allow')
  | _, _, _, .nil, .nil, _ => ⟨rfl, fun _ _ _ h => nomatch h⟩
  | _, _, _, .cons ht _ hts, .cons ht' _ hts', hp => by
    rw [isPlainEach, Bool.and_eq_true] at hp
    obtain ⟨hlen, h⟩ := hts.passes hl hts' hp.2
    exact ⟨by rw [List.length_cons, List.length_cons, hlen], forall_places_cons.2 ⟨ht.passes hl ht' hp.1, h⟩⟩

end

end Description

end Passes

/-- No union that checks a part of values refers to a definition with an object, directly or through others. -/
def ObjectFreeUnions (defs : Definitions) (root : Tree) : Prop :=
  ∀ p cs, Tree.Checks defs root p (.leaf (.union cs)) →
    ∀ name ∈ (Constraint.union cs).references, ¬ defs.LeadsToObject name

namespace Definitions

variable {isDefined : String → Bool} {defs defs' : Definitions} {root : Tree} {x₀ : Json}

/-- A union returns the value that it allows, perhaps as an integer: its references decide alike, and none of its
alternatives tells a whole double from an integer. -/
theorem Twice.passes_union (ht : Twice isDefined .strip .reject defs defs') (hw : WholeAtUnions defs root x₀)
    (ho : ObjectFreeUnions defs root) (budget : Nat) (cs : List Constraint) :
      Passes defs root x₀ (.leaf (.union cs)) ((Constraint.union cs).allows (defs.allows budget))
        ((Constraint.union cs).normalize (defs.normalize budget))
        ((Constraint.union cs).allows (defs'.allows budget)) := by
  intro p v hm h
  have heq := (Constraint.union cs).allows_congr_of_references
    (fun name hn => ht.allows_eq budget name (ho p cs hm.checks name hn)) v
  rw [heq] at h
  rw [Constraint.normalize]
  split
  · rename_i hi
    have hwhole : v.Whole := fun d hd => hw p cs d hm.checks hi (hd ▸ hm.found)
    have hsame := Tree.allows_asInteger hwhole defs' budget (.leaf (.union cs))
    rw [Tree.allows, Tree.allows] at hsame
    rw [hsame]
    exact h
  · exact h

/-- What a reference normalizes passes it, by induction on the budget. -/
theorem Twice.passes (ht : Twice isDefined .strip .reject defs defs') (hw : WholeAtUnions defs root x₀)
    (ho : ObjectFreeUnions defs root) : ∀ (budget : Nat) (name : String),
      Passes defs root x₀ (.leaf (.reference name)) (defs.allows budget name) (defs.normalize budget name)
        (defs'.allows budget name)
  | 0, _, _, _, _, h => by cases h
  | budget + 1, name, p, v, hm, h => by
    rw [Definitions.allows] at h ⊢
    rw [Definitions.normalize]
    rcases ht.lookup name with ⟨hl, -⟩ | ⟨t, t', d, hl, hl', hp, hct, hct'⟩
    · rw [hl] at h
      cases h
    · rw [hl] at h ⊢
      rw [hl']
      exact hct.passes ⟨ht.passes hw ho budget, ht.passes_union hw ho budget⟩ hct' hp p v (hm.definition hl) h

end Definitions

/-- A scope that compiles under two policies holds the trees of its descriptions twice. -/
theorem Scope.twice_compile {s : Scope} {options options' : Options} {compiled compiled' : CompiledScope}
    (hp : ∀ e ∈ s.definitions, Description.isPlain e.2 = true) (h : s.compile options = .ok compiled)
    (h' : s.compile options' = .ok compiled') : Definitions.Twice s.names.contains options.policy options'.policy
      compiled.definitions compiled'.definitions := by
  intro name
  cases hd : s.definitions.lookup name with
  | none =>
    rw [lookup_compile_eq_none h hd, lookup_compile_eq_none h' hd]
    exact .none
  | some d =>
    obtain ⟨t, hl, ht⟩ := compiles_of_lookup h hd
    obtain ⟨t', hl', ht'⟩ := compiles_of_lookup h' hd
    rw [hl, hl']
    exact .some ⟨d, hp _ (mem_of_lookup hd), ht, ht'⟩

namespace Validator

variable {isDefined : String → Bool} {d : Description} {v w : Validator}

/-- What the validator that strips returns, the one that rejects allows. -/
theorem allows_of_twice (hs : Definitions.Twice isDefined .strip .reject v.scope w.scope) (hp : d.isPlain = true)
    (hv : d.Compiles isDefined .strip v.root) (hw : d.Compiles isDefined .reject w.root)
    (hm : w.maxDepth = v.maxDepth) (ho : ObjectFreeUnions v.scope v.root) {x : Document} {n : Json}
    (h : v.validate x.value = .valid n) (hx : WholeAtUnions v.scope v.root x.value) : w.allows n = true := by
  obtain ⟨hvx, rfl⟩ := (v.validate_eq_valid_iff x.value n).1 h
  have ha := (v.violations_eq_nil_iff x.value).1 hvx
  unfold allows normalize
  rw [hm]
  exact hv.passes ⟨hs.passes hx ho v.maxDepth, hs.passes_union hx ho v.maxDepth⟩ hw hp [] x.value (.start x) ha

/-- **What stripping returns is not rejected**: neither outside a scope nor within one, where it takes that no union
refers to a definition with an object.  In both cases no integral union may have cut a fraction from a double. -/
theorem allows_stripped (maxDepth : Nat) :
    (∀ (c c' : Compiler) (d : Description) (v w : Validator), c.Reached → c'.Reached →
      c.options = ⟨.strip, maxDepth⟩ → c'.options = ⟨.reject, maxDepth⟩ → d.isPlain = true →
        (c.compile d).1 = .ok v → (c'.compile d).1 = .ok w → ∀ (x : Document) n, v.validate x.value = .valid n →
          WholeAtUnions v.scope v.root x.value → w.allows n = true) ∧
    ∀ (s : Scope) (strips rejects : CompiledScope), (∀ e ∈ s.definitions, Description.isPlain e.2 = true) →
      s.compile ⟨.strip, maxDepth⟩ = .ok strips → s.compile ⟨.reject, maxDepth⟩ = .ok rejects →
        ∀ name v, strips.validator? name = some v → ∃ w, rejects.validator? name = some w ∧
          (ObjectFreeUnions v.scope v.root → ∀ (x : Document) n, v.validate x.value = .valid n →
            WholeAtUnions v.scope v.root x.value → w.allows n = true) := by
  constructor
  · intro c c' d v w hc hc' hs hr hp hv hw x n h hx
    obtain ⟨t, rfl, ht⟩ := hc.compiles hv
    obtain ⟨t', rfl, ht'⟩ := hc'.compiles hw
    rw [hs] at ht
    rw [hr] at ht'
    have hm : c'.options.maxDepth = c.options.maxDepth := by rw [hs, hr]
    exact allows_of_twice (v := ⟨t, none, c.options.maxDepth⟩) (fun _ => .none) hp ht ht' hm
      (fun _ _ _ name _ => Definitions.not_leadsToObject_nil name) h hx
  · intro s strips rejects hp hs hr name v hv
    unfold CompiledScope.validator? at hv
    obtain ⟨t, ht, rfl⟩ := Option.map_eq_some_iff.1 hv
    obtain ⟨d, hd, hct⟩ := Scope.compiles_of_lookup_compiled hs ht
    obtain ⟨t', ht', hct'⟩ := Scope.compiles_of_lookup hr hd
    refine ⟨⟨t', some rejects.definitions, rejects.maxDepth⟩, by rw [CompiledScope.validator?, ht']; rfl, ?_⟩
    intro ho x n h hwhole
    have hm : rejects.maxDepth = strips.maxDepth :=
      (Scope.compile_eq_ok_iff.1 hr).2.2.trans (Scope.compile_eq_ok_iff.1 hs).2.2.symm
    exact allows_of_twice (Scope.twice_compile hp hs hr) (hp _ (mem_of_lookup hd)) hct hct' hm ho h hwhole

def address : Description := .object [⟨"city", .constraint (.kind .string), false⟩] none

/-- Addresses, and people at one with perhaps a name to call them. -/
def people : Scope where
  definitions := [("Address", address), ("Person", .object [⟨"home", .constraint (.reference "Address"), false⟩,
    ⟨"nick", .constraint (.union [.kind .string, .literal .null]), false⟩] none)]

/-- The tree of addresses under a policy. -/
def addressTree (policy : Policy) : Tree := .object [⟨"city", false, .leaf (.kind .string)⟩] policy

/-- The tree of people under a policy. -/
def personTree (policy : Policy) : Tree :=
  .object [⟨"home", false, .leaf (.reference "Address")⟩,
    ⟨"nick", false, .leaf (.union [.kind .string, .literal .null])⟩] policy

/-- The validator of people under a policy. -/
def personBy (policy : Policy) : Validator :=
  ⟨personTree policy, some [("Address", addressTree policy), ("Person", personTree policy)], 100⟩

theorem people_compile (policy : Policy) : people.compile ⟨policy, 100⟩ =
    .ok ⟨[("Address", addressTree policy), ("Person", personTree policy)], 100⟩ := rfl

/-- The only union among the trees of people is that of names. -/
theorem personBy_unions {p : Path} {cs : List Constraint} (h : (personBy .strip).Checks p (.leaf (.union cs))) :
    cs = [.kind .string, .literal .null] := by
  rcases Tree.Checks.mem_unions h cs List.mem_cons_self with hm | ⟨name, t, hl, hm⟩
  · exact List.mem_singleton.1 hm
  · rcases List.mem_cons.1 (mem_of_lookup hl) with he | hl
    · cases he
      cases hm
    · cases List.mem_singleton.1 hl
      exact List.mem_singleton.1 hm

/-- A city in an address with a key too many. -/
def oslo : Json := .object [("city", .string "Oslo"), ("debug", .bool true)]

def justOslo : Json := .object [("city", .string "Oslo")]

/-- A person at this address, with another key too many. -/
def fromOslo : Json := .object [("x", .null), ("home", oslo), ("nick", .null)]

/-- The key too many goes from an address outside a scope and from that of a person; neither is rejected then. -/
theorem allows_stripped_oslo :
    (Validator.mk (addressTree .strip) none 100).validate oslo = .valid justOslo ∧
      (Validator.mk (addressTree .reject) none 100).allows justOslo = true ∧
      (personBy .strip).validate fromOslo = .valid (.object [("home", justOslo), ("nick", .null)]) ∧
      (personBy .reject).allows (.object [("home", justOslo), ("nick", .null)]) = true := by
  refine ⟨rfl, ?_, rfl, ?_⟩
  · refine (allows_stripped 100).1 ⟨⟨.strip, 100⟩, []⟩ ⟨⟨.reject, 100⟩, []⟩ address _ _ (.new _) (.new _) rfl rfl rfl
      rfl rfl ⟨oslo, rfl⟩ justOslo rfl fun p cs d hc => ?_
    rcases Tree.Checks.mem_unions hc cs List.mem_cons_self with hm | ⟨_, _, hl, _⟩
    · cases hm
    · cases hl
  · obtain ⟨w, hw, h⟩ := (allows_stripped 100).2 people _ _ (by decide) (people_compile .strip) (people_compile .reject)
      "Person" (personBy .strip) rfl
    cases hw
    refine h (fun p cs hc name hm => ?_) ⟨fromOslo, rfl⟩ _ rfl fun p cs d hc hi => ?_
    · rw [personBy_unions hc] at hm
      cases hm
    · rw [personBy_unions hc] at hi
      cases hi

/-- An address or nothing. -/
def places : Scope where
  definitions := [("Address", address), ("Place", .constraint (.union [.reference "Address", .literal .null]))]

/-- **A union keeps the keys that its references strip**: an address with a key too many is its own normal form as a
place, although an address strips the key, and is rejected. -/
theorem union_keeps_strays : ∃ strips rejects one place place',
    places.compile ⟨.strip, 100⟩ = .ok strips ∧ places.compile ⟨.reject, 100⟩ = .ok rejects ∧
      strips.validator? "Address" = some one ∧ strips.validator? "Place" = some place ∧
      rejects.validator? "Place" = some place' ∧ one.validate oslo = .valid justOslo ∧
      place.validate oslo = .valid oslo ∧ place'.allows oslo = false :=
  ⟨_, _, _, _, _, rfl, rfl, rfl, rfl, rfl, rfl, rfl, by decide⟩

end Validator

end Assay
