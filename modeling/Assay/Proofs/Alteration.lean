import Assay.Proofs.Places
/-!
# Values up to numbers and keys

A value is altered (`Json.Altered`) when some of its numbers have become others and some keys of its objects are gone,
each as a condition on its path allows.  All else is as it was: the kinds, the lengths of arrays, the order of the keys
that are left.  What is left at a path is what stood there, altered in turn (`Altered.at?`).
-/
namespace Assay

namespace Json

mutual

/-- **The second value is the first, altered**: at each path numbers may change as `number` relates them, and keys may go
where `gone` holds. -/
inductive Altered (number : Number → Number → Prop) (gone : Path → String → Prop) : Path → Json → Json → Prop
  | null (p : Path) : Altered number gone p .null .null
  | bool (p : Path) (b : Bool) : Altered number gone p (.bool b) (.bool b)
  | number {p : Path} {a b : Number} : number a b → Altered number gone p (.number a) (.number b)
  | string (p : Path) (s : String) : Altered number gone p (.string s) (.string s)
  | array {p : Path} {xs ys : List Json} : xs.length = ys.length →
    (∀ (i : Nat) (x y : Json), xs[i]? = some x → ys[i]? = some y → Altered number gone (p.push (.index i)) x y) →
      Altered number gone p (.array xs) (.array ys)
  | object {p : Path} {es es' : List (String × Json)} :
    AlteredEntries number gone p es es' → Altered number gone p (.object es) (.object es')

/-- The second entries are those of the first whose keys are not gone, in their order and altered. -/
inductive AlteredEntries (number : Number → Number → Prop) (gone : Path → String → Prop) :
    Path → List (String × Json) → List (String × Json) → Prop
  | nil (p : Path) : AlteredEntries number gone p [] []
  | keep {p : Path} {k : String} {x y : Json} {es es' : List (String × Json)} :
    Altered number gone (p.push (.key k)) x y → AlteredEntries number gone p es es' →
      AlteredEntries number gone p ((k, x) :: es) ((k, y) :: es')
  | drop {p : Path} {k : String} {x : Json} {es es' : List (String × Json)} :
    gone p k → AlteredEntries number gone p es es' → AlteredEntries number gone p ((k, x) :: es) es'

end

variable {number : Number → Number → Prop} {gone : Path → String → Prop}

mutual

theorem Altered.refl (hn : ∀ a, number a a) : ∀ (x : Json) (p : Path), Altered number gone p x x
  | .null, p => .null p
  | .bool b, p => .bool p b
  | .number a, _ => .number (hn a)
  | .string s, p => .string p s
  | .array xs, p => .array rfl fun i x y hx hy => by
    rw [hx] at hy
    cases hy
    exact Altered.refl_of_mem hn xs x (List.mem_of_getElem? hx) _
  | .object es, p => .object (AlteredEntries.refl hn es p)

theorem Altered.refl_of_mem (hn : ∀ a, number a a) : ∀ (xs : List Json), ∀ x ∈ xs, ∀ p, Altered number gone p x x
  | y :: xs, x, hx, p => by
    rcases List.mem_cons.1 hx with hx | hx
    · rw [hx]
      exact Altered.refl hn y p
    · exact Altered.refl_of_mem hn xs x hx p

theorem AlteredEntries.refl (hn : ∀ a, number a a) : ∀ (es : List (String × Json)) (p : Path),
    AlteredEntries number gone p es es
  | [], p => .nil p
  | (_, x) :: es, p => .keep (Altered.refl hn x _) (AlteredEntries.refl hn es p)

end

/-- The keys that are left are keys that there were, in their order. -/
theorem AlteredEntries.keys_sublist {p : Path} : ∀ {es es' : List (String × Json)},
    AlteredEntries number gone p es es' → (es'.map (·.1)).Sublist (es.map (·.1))
  | _, _, .nil _ => List.Sublist.slnil
  | _, _, .keep _ h => h.keys_sublist.cons_cons _
  | _, _, .drop _ h => h.keys_sublist.cons _

/-- What is left at a key is what was there, altered. -/
theorem AlteredEntries.lookup {p : Path} {k : String} {x y : Json} : ∀ {es es' : List (String × Json)},
    AlteredEntries number gone p es es' → (es.map (·.1)).Nodup → es.lookup k = some x → es'.lookup k = some y →
      Altered number gone (p.push (.key k)) x y
  | _, _, .nil _, _, hx, _ => by cases hx
  | (k', x') :: es, (_, y') :: es', .keep ha h, hd, hx, hy => by
    rw [List.lookup_cons] at hx hy
    rw [List.map_cons, List.nodup_cons] at hd
    by_cases he : k = k'
    · subst he
      rw [beq_self_eq_true] at hx hy
      cases hx
      cases hy
      exact ha
    · rw [beq_false_of_ne he] at hx hy
      exact h.lookup hd.2 hx hy
  | (k', x') :: es, es', .drop _ h, hd, hx, hy => by
    rw [List.map_cons, List.nodup_cons] at hd
    have hk : k ∈ es.map (·.1) := h.keys_sublist.mem (List.mem_map_of_mem (mem_of_lookup hy))
    have hne : k ≠ k' := fun he => hd.1 (he ▸ hk)
    rw [List.lookup_cons, beq_false_of_ne hne] at hx
    exact h.lookup hd.2 hx hy

/-- **What is left at a path is what stood there, altered.** -/
theorem Altered.at? : ∀ (p : Path) {q : Path} {x y z w : Json}, Altered number gone q x y → x.distinctKeys = true →
    x.at? p = some z → y.at? p = some w → Altered number gone (q ++ p) z w
  | [], q, x, y, z, w, h, _, hz, hw => by
    cases hz
    cases hw
    rwa [List.append_nil]
  | s :: p, q, x, y, z, w, h, hd, hz, hw => by
    rw [at?_cons] at hz hw
    obtain ⟨x', hx, hz'⟩ := Option.bind_eq_some_iff.1 hz
    obtain ⟨y', hy, hw'⟩ := Option.bind_eq_some_iff.1 hw
    rw [List.append_cons]
    cases h with
    | array hl h =>
      cases s with
      | key k => cases hx
      | index i =>
        have hd' := distinctKeys_array.1 hd x' (List.mem_of_getElem? hx)
        exact Altered.at? p (h i x' y' hx hy) hd' hz' hw'
    | object h =>
      cases s with
      | key k =>
        obtain ⟨hk, hes⟩ := distinctKeys_object.1 hd
        exact Altered.at? p (h.lookup hk hx hy) (hes _ (mem_of_lookup hx)) hz' hw'
      | index i => cases hx
    | _ => cases s <;> cases hx

end Json

end Assay
