import Assay.Proofs.Decision
import Assay.Proofs.References
/-!
# Following references

The three evaluators again, in any monad: what a reference comes to is asked for, and an answer that is not needed is
not asked for (`Tree.allowsM`, `Tree.violationsM`, `Tree.normalizeM`).  They ask about the names in the tree alone, so
where these have plain answers the evaluators give plain answers (`Tree.allowsM_eq_pure`), and no other name matters
(`Tree.violations_congr_of_references`).
-/
namespace Assay

section Monadic

variable {m : Type → Type} [Monad m]

namespace Constraint

mutual

/-- Whether a constraint allows a value, as far as it has to ask. -/
def allowsM (ask : String → Json → m Bool) : Constraint → Json → m Bool
  | kind k, v => return k.admits v
  | range k min max, v => return k.admitsWithin min max v
  | format f, v => return f.admitsValue v
  | literal l, v => return l.admits v
  | union cs, v => allowsAnyM ask cs v
  | array c, v => match v with
    | .array items => items.allM (allowsM ask c)
    | _ => return false
  | tuple cs, v => match v with
    | .array items => if items.length = cs.length then allowsEachM ask cs items else return false
    | _ => return false
  | optional c, v => allowsM ask c v
  | reference n, v => ask n v

/-- The alternatives of a union up to the first that allows the value. -/
def allowsAnyM (ask : String → Json → m Bool) : List Constraint → Json → m Bool
  | [], _ => return false
  | c :: cs, v => do if ← allowsM ask c v then return true else allowsAnyM ask cs v

/-- The places of a tuple up to the first that is not allowed. -/
def allowsEachM (ask : String → Json → m Bool) : List Constraint → List Json → m Bool
  | c :: cs, v :: vs => do if ← allowsM ask c v then allowsEachM ask cs vs else return false
  | _, _ => return true

end

def refusalM (ask : String → Json → m Bool) (c : Constraint) (v : Json) : m (List Violation) := do
  if ← c.allowsM ask v then return [] else return [.ofValue c.rule c.render v]

end Constraint

def itemViolationsM (check : Json → m (List Violation)) : Nat → List Json → m (List Violation)
  | _, [] => return []
  | i, v :: vs => do
    let here ← check v
    let rest ← itemViolationsM check (i + 1) vs
    return here.map (·.under (.index i)) ++ rest

namespace Constraint

mutual

/-- The violations of a constraint: every place is looked at, and inside unions only what a decision has to ask. -/
def violationsM (ask : String → Json → m Bool) (find : String → Json → m (List Violation)) :
    Constraint → Json → m (List Violation)
  | array c, v => match v with
    | .array items => itemViolationsM (violationsM ask find c) 0 items
    | _ => return [.ofValue .typeMismatch (array c).render v]
  | tuple cs, v => match v with
    | .array items =>
      if items.length = cs.length then violationsEachM ask find 0 cs items else return [tupleMismatch cs.length v]
    | _ => return [tupleMismatch cs.length v]
  | optional c, v => violationsM ask find c v
  | reference n, v => find n v
  | kind k, v => (kind k).refusalM ask v
  | range k min max, v => (range k min max).refusalM ask v
  | format f, v => (format f).refusalM ask v
  | literal l, v => (literal l).refusalM ask v
  | union cs, v => (union cs).refusalM ask v

def violationsEachM (ask : String → Json → m Bool) (find : String → Json → m (List Violation)) :
    Nat → List Constraint → List Json → m (List Violation)
  | i, c :: cs, v :: vs => do
    let here ← violationsM ask find c v
    let rest ← violationsEachM ask find (i + 1) cs vs
    return here.map (·.under (.index i)) ++ rest
  | _, _, _ => return []

end

mutual

def normalizeM (give : String → Json → m Json) : Constraint → Json → m Json
  | array c, v => match v with
    | .array items => return .array (← items.mapM (normalizeM give c))
    | _ => return v
  | tuple cs, v => match v with
    | .array items => return .array (← normalizeEachM give cs items)
    | _ => return v
  | optional c, v => normalizeM give c v
  | reference n, v => give n v
  | kind k, v => return if (kind k).isIntegral then v.asInteger else v
  | range k min max, v => return if (range k min max).isIntegral then v.asInteger else v
  | union cs, v => return if (union cs).isIntegral then v.asInteger else v
  | format _, v => return v
  | literal _, v => return v

def normalizeEachM (give : String → Json → m Json) : List Constraint → List Json → m (List Json)
  | c :: cs, v :: vs => do
    let w ← normalizeM give c v
    let rest ← normalizeEachM give cs vs
    return w :: rest
  | _, vs => return vs

end

end Constraint

namespace Tree

mutual

/-- Whether a tree allows a value, as far as it has to ask. -/
def allowsM (ask : String → Json → m Bool) : Tree → Json → m Bool
  | leaf c, v => c.allowsM ask v
  | object fields policy, v => match v with
    | .object entries => do
      if ← allowsFieldsM ask fields entries then
        return policy != .reject || entries.all fun e => declares fields e.1
      else return false
    | _ => return false
  | array t, v => match v with
    | .array items => items.allM (allowsM ask t)
    | _ => return false
  | tuple ts, v => match v with
    | .array items => if items.length = ts.length then allowsEachM ask ts items else return false
    | _ => return false

def allowsFieldsM (ask : String → Json → m Bool) : List Field → List (String × Json) → m Bool
  | [], _ => return true
  | ⟨name, optional, t⟩ :: fields, entries => do
    let fine ← match entries.lookup name with
      | some v => allowsM ask t v
      | none => pure optional
    if fine then allowsFieldsM ask fields entries else return false

def allowsEachM (ask : String → Json → m Bool) : List Tree → List Json → m Bool
  | t :: ts, v :: vs => do if ← allowsM ask t v then allowsEachM ask ts vs else return false
  | _, _ => return true

end

mutual

/-- The violations of a tree: every field and every place is looked at. -/
def violationsM (ask : String → Json → m Bool) (find : String → Json → m (List Violation)) :
    Tree → Json → m (List Violation)
  | leaf c, v => c.violationsM ask find v
  | object fields policy, v => match v with
    | .object entries => do
      let declared ← violationsFieldsM ask find fields entries
      return declared ++ if policy = .reject then extraViolations fields entries else []
    | _ => return [.ofValue .typeMismatch "object" v]
  | array t, v => match v with
    | .array items => itemViolationsM (violationsM ask find t) 0 items
    | _ => return [.ofValue .typeMismatch "array" v]
  | tuple ts, v => match v with
    | .array items =>
      if items.length = ts.length then violationsEachM ask find 0 ts items else return [tupleMismatch ts.length v]
    | _ => return [tupleMismatch ts.length v]

def violationsFieldsM (ask : String → Json → m Bool) (find : String → Json → m (List Violation)) :
    List Field → List (String × Json) → m (List Violation)
  | [], _ => return []
  | ⟨name, optional, t⟩ :: fields, entries => do
    let here ← match entries.lookup name with
      | some v => (List.map fun e => e.under (.key name)) <$> violationsM ask find t v
      | none => pure <| if optional then [] else [⟨[.key name], .missingRequiredField, t.expected, "missing"⟩]
    let rest ← violationsFieldsM ask find fields entries
    return here ++ rest

def violationsEachM (ask : String → Json → m Bool) (find : String → Json → m (List Violation)) :
    Nat → List Tree → List Json → m (List Violation)
  | i, t :: ts, v :: vs => do
    let here ← violationsM ask find t v
    let rest ← violationsEachM ask find (i + 1) ts vs
    return here.map (·.under (.index i)) ++ rest
  | _, _, _ => return []

end

mutual

def normalizeM (give : String → Json → m Json) : Tree → Json → m Json
  | leaf c, v => c.normalizeM give v
  | object fields policy, v => match v with
    | .object entries => do
      let kept ← entries.mapM fun (k, x) => do
        let declared ← normalizeFieldM give fields k x
        return match declared with
          | some y => some (k, y)
          | none => if policy = .strip then none else some (k, x)
      return .object (kept.filterMap id)
    | _ => return v
  | array t, v => match v with
    | .array items => return .array (← items.mapM (normalizeM give t))
    | _ => return v
  | tuple ts, v => match v with
    | .array items => return .array (← normalizeEachM give ts items)
    | _ => return v

def normalizeFieldM (give : String → Json → m Json) : List Field → String → Json → m (Option Json)
  | [], _, _ => return none
  | ⟨name, _, t⟩ :: fields, k, v =>
    if name = k then some <$> normalizeM give t v else normalizeFieldM give fields k v

def normalizeEachM (give : String → Json → m Json) : List Tree → List Json → m (List Json)
  | t :: ts, v :: vs => do
    let w ← normalizeM give t v
    let rest ← normalizeEachM give ts vs
    return w :: rest
  | _, vs => return vs

end

end Tree

/-- About each of some names, what is asked has the plain answers of `follow`. -/
def Answers {α : Type} (names : List String) (ask : String → Json → m α) (follow : String → Json → α) : Prop :=
  ∀ name ∈ names, ∀ v, ask name v = pure (follow name v)

namespace Answers

variable {α : Type} {names names' : List String} {ask : String → Json → m α} {follow : String → Json → α}

theorem left (h : Answers (names ++ names') ask follow) : Answers names ask follow :=
  fun name hn => h name (List.mem_append_left _ hn)

theorem right (h : Answers (names ++ names') ask follow) : Answers names' ask follow :=
  fun name hn => h name (List.mem_append_right _ hn)

end Answers

section Plain

variable [LawfulMonad m] {ask : String → Json → m Bool} {find : String → Json → m (List Violation)}
  {give : String → Json → m Json} {allow : String → Json → Bool} {follow : String → Json → List Violation}
  {normal : String → Json → Json}

namespace Constraint

mutual

theorem allowsM_eq_pure : ∀ (c : Constraint), Answers c.references ask allow → ∀ v,
    c.allowsM ask v = pure (c.allows allow v)
  | kind _, _, _ => rfl
  | range _ _ _, _, _ => rfl
  | format _, _, _ => rfl
  | literal _, _, _ => rfl
  | reference n, h, v => h n List.mem_cons_self v
  | optional c, h, v => by
    rw [allowsM, allows]
    exact allowsM_eq_pure c h v
  | union cs, h, v => by
    rw [allowsM, allows]
    exact allowsAnyM_eq_pure cs h v
  | array c, h, v => by
    cases v with
    | array items =>
      have hc : c.allowsM ask = fun w => pure (c.allows allow w) := funext (allowsM_eq_pure c h)
      rw [allowsM, allows, hc, List.allM_pure]
    | _ => rfl
  | tuple cs, h, v => by
    cases v with
    | array items =>
      rw [allowsM, allows]
      split
      · rename_i hl
        exact allowsEachM_eq_pure cs items hl h
      · rename_i hl
        have hf : allowsEach allow cs items = false :=
          Bool.eq_false_iff.2 fun he => hl (length_eq_of_allowsEach allow cs items he)
        rw [hf]
    | _ => rfl

theorem allowsAnyM_eq_pure : ∀ (cs : List Constraint), Answers (referencesAll cs) ask allow → ∀ v,
    allowsAnyM ask cs v = pure (allowsAny allow cs v)
  | [], _, _ => rfl
  | c :: cs, h, v => by
    have hc := allowsM_eq_pure c h.left v
    have hcs := allowsAnyM_eq_pure cs h.right v
    rw [allowsAnyM, allowsAny, hc, hcs, pure_bind]
    cases c.allows allow v <;> rfl

theorem allowsEachM_eq_pure : ∀ (cs : List Constraint) (vs : List Json), vs.length = cs.length →
    Answers (referencesAll cs) ask allow → allowsEachM ask cs vs = pure (allowsEach allow cs vs)
  | [], [], _, _ => rfl
  | c :: cs, v :: vs, hl, h => by
    have hc := allowsM_eq_pure c h.left v
    have hcs := allowsEachM_eq_pure cs vs (Nat.succ.inj hl) h.right
    rw [allowsEachM, allowsEach, hc, hcs, pure_bind]
    cases c.allows allow v <;> rfl

end

theorem refusalM_eq_pure (c : Constraint) (h : Answers c.references ask allow) (v : Json) :
    c.refusalM ask v = pure (c.refusal allow v) := by
  rw [refusalM, refusal, c.allowsM_eq_pure h v, pure_bind]
  cases c.allows allow v <;> rfl

end Constraint

theorem itemViolationsM_eq_pure {checkM : Json → m (List Violation)} {check : Json → List Violation}
    (h : ∀ v, checkM v = pure (check v)) : ∀ (i : Nat) (vs : List Json),
      itemViolationsM checkM i vs = pure (itemViolations check i vs)
  | _, [] => rfl
  | i, v :: vs => by rw [itemViolationsM, itemViolations, h, pure_bind, itemViolationsM_eq_pure h (i + 1) vs, pure_bind]

namespace Constraint

mutual

theorem violationsM_eq_pure : ∀ (c : Constraint), Answers c.references ask allow → Answers c.references find follow →
    ∀ v, c.violationsM ask find v = pure (c.violations allow follow v)
  | kind k, ha, _, v => by rw [violationsM, violations, refusalM_eq_pure _ ha]
  | range k min max, ha, _, v => by rw [violationsM, violations, refusalM_eq_pure _ ha]
  | format f, ha, _, v => by rw [violationsM, violations, refusalM_eq_pure _ ha]
  | literal l, ha, _, v => by rw [violationsM, violations, refusalM_eq_pure _ ha]
  | union cs, ha, _, v => by rw [violationsM, violations, refusalM_eq_pure _ ha]
  | reference n, _, hf, v => by
    rw [violationsM, violations]
    exact hf n List.mem_cons_self v
  | optional c, ha, hf, v => by
    rw [violationsM, violations]
    exact violationsM_eq_pure c ha hf v
  | array c, ha, hf, v => by
    cases v with
    | array items =>
      rw [violationsM, violations]
      exact itemViolationsM_eq_pure (violationsM_eq_pure c ha hf) 0 items
    | _ => simp only [violationsM, violations]
  | tuple cs, ha, hf, v => by
    cases v with
    | array items =>
      rw [violationsM, violations, violationsEachM_eq_pure 0 cs items ha hf]
      split <;> rfl
    | _ => simp only [violationsM, violations]

theorem violationsEachM_eq_pure : ∀ (i : Nat) (cs : List Constraint) (vs : List Json),
    Answers (referencesAll cs) ask allow → Answers (referencesAll cs) find follow →
      violationsEachM ask find i cs vs = pure (violationsEach allow follow i cs vs)
  | _, [], _, _, _ => by rw [violationsEachM, violationsEach] <;> exact nofun
  | _, _ :: _, [], _, _ => by rw [violationsEachM, violationsEach] <;> exact nofun
  | i, c :: cs, v :: vs, ha, hf => by
    have hc := violationsM_eq_pure c ha.left hf.left v
    have hcs := violationsEachM_eq_pure (i + 1) cs vs ha.right hf.right
    rw [violationsEachM, violationsEach, hc, pure_bind, hcs, pure_bind]

end

mutual

theorem normalizeM_eq_pure : ∀ (c : Constraint), Answers c.references give normal → ∀ v,
    c.normalizeM give v = pure (c.normalize normal v)
  | kind _, _, _ => by rw [normalizeM, normalize]
  | range _ _ _, _, _ => by rw [normalizeM, normalize]
  | union _, _, _ => by rw [normalizeM, normalize]
  | format _, _, _ => by rw [normalizeM, normalize]
  | literal _, _, _ => by rw [normalizeM, normalize]
  | reference n, h, v => by
    rw [normalizeM, normalize]
    exact h n List.mem_cons_self v
  | optional c, h, v => by
    rw [normalizeM, normalize]
    exact normalizeM_eq_pure c h v
  | array c, h, v => by
    cases v with
    | array items =>
      have hc : c.normalizeM give = fun w => pure (c.normalize normal w) := funext (normalizeM_eq_pure c h)
      rw [normalizeM, normalize, hc, List.mapM_pure, pure_bind]
    | _ => simp only [normalizeM, normalize]
  | tuple cs, h, v => by
    cases v with
    | array items => rw [normalizeM, normalize, normalizeEachM_eq_pure cs items h, pure_bind]
    | _ => simp only [normalizeM, normalize]

theorem normalizeEachM_eq_pure : ∀ (cs : List Constraint) (vs : List Json),
    Answers (referencesAll cs) give normal → normalizeEachM give cs vs = pure (normalizeEach normal cs vs)
  | [], _, _ => by rw [normalizeEachM, normalizeEach] <;> exact nofun
  | _ :: _, [], _ => by rw [normalizeEachM, normalizeEach] <;> exact nofun
  | c :: cs, v :: vs, h => by
    have hc := normalizeM_eq_pure c h.left v
    have hcs := normalizeEachM_eq_pure cs vs h.right
    rw [normalizeEachM, normalizeEach, hc, pure_bind, hcs, pure_bind]

end

end Constraint

namespace Tree

mutual

/-- **A tree decides plainly what it asks about plain answers.** -/
theorem allowsM_eq_pure : ∀ (t : Tree), Answers t.references ask allow → ∀ v,
    t.allowsM ask v = pure (t.allows allow v)
  | leaf c, h, v => by
    rw [allowsM, allows]
    exact c.allowsM_eq_pure h v
  | object fields policy, h, v => by
    cases v with
    | object entries =>
      rw [allowsM, allows, allowsFieldsM_eq_pure fields h, pure_bind]
      cases allowsFields allow fields entries <;> rfl
    | _ => rfl
  | array t, h, v => by
    cases v with
    | array items =>
      have ht : t.allowsM ask = fun w => pure (t.allows allow w) := funext (allowsM_eq_pure t h)
      rw [allowsM, allows, ht, List.allM_pure]
    | _ => rfl
  | tuple ts, h, v => by
    cases v with
    | array items =>
      rw [allowsM, allows]
      split
      · rename_i hl
        exact allowsEachM_eq_pure ts items hl h
      · rename_i hl
        have hf : allowsEach allow ts items = false :=
          Bool.eq_false_iff.2 fun he => hl (length_eq_of_allowsEach allow ts items he)
        rw [hf]
    | _ => rfl

theorem allowsFieldsM_eq_pure : ∀ (fields : List Field), Answers (referencesFields fields) ask allow → ∀ entries,
    allowsFieldsM ask fields entries = pure (allowsFields allow fields entries)
  | [], _, _ => rfl
  | ⟨name, optional, t⟩ :: fields, h, entries => by
    rw [referencesFields] at h
    have ht := allowsM_eq_pure t h.left
    have hfs := allowsFieldsM_eq_pure fields h.right entries
    rw [allowsFieldsM, allowsFields]
    cases entries.lookup name with
    | some v =>
      dsimp only
      rw [ht v, hfs, pure_bind]
      cases t.allows allow v <;> rfl
    | none =>
      dsimp only
      rw [hfs, pure_bind]
      cases optional <;> rfl

theorem allowsEachM_eq_pure : ∀ (ts : List Tree) (vs : List Json), vs.length = ts.length →
    Answers (referencesEach ts) ask allow → allowsEachM ask ts vs = pure (allowsEach allow ts vs)
  | [], [], _, _ => rfl
  | t :: ts, v :: vs, hl, h => by
    rw [referencesEach] at h
    have ht := allowsM_eq_pure t h.left v
    have hts := allowsEachM_eq_pure ts vs (Nat.succ.inj hl) h.right
    rw [allowsEachM, allowsEach, ht, hts, pure_bind]
    cases t.allows allow v <;> rfl

end

mutual

/-- **A tree diagnoses plainly what it asks about plain answers.** -/
theorem violationsM_eq_pure : ∀ (t : Tree), Answers t.references ask allow → Answers t.references find follow →
    ∀ v, t.violationsM ask find v = pure (t.violations allow follow v)
  | leaf c, ha, hf, v => by
    rw [violationsM, violations]
    exact c.violationsM_eq_pure ha hf v
  | object fields policy, ha, hf, v => by
    cases v with
    | object entries => rw [violationsM, violations, violationsFieldsM_eq_pure fields ha hf, pure_bind]
    | _ => simp only [violationsM, violations]
  | array t, ha, hf, v => by
    cases v with
    | array items =>
      rw [violationsM, violations]
      exact itemViolationsM_eq_pure (violationsM_eq_pure t ha hf) 0 items
    | _ => simp only [violationsM, violations]
  | tuple ts, ha, hf, v => by
    cases v with
    | array items =>
      rw [violationsM, violations, violationsEachM_eq_pure 0 ts items ha hf]
      split <;> rfl
    | _ => simp only [violationsM, violations]

theorem violationsFieldsM_eq_pure : ∀ (fields : List Field), Answers (referencesFields fields) ask allow →
    Answers (referencesFields fields) find follow → ∀ entries,
      violationsFieldsM ask find fields entries = pure (violationsFields allow follow fields entries)
  | [], _, _, _ => by rw [violationsFieldsM, violationsFields]
  | ⟨name, optional, t⟩ :: fields, ha, hf, entries => by
    rw [referencesFields] at ha hf
    have ht := violationsM_eq_pure t ha.left hf.left
    have hfs := violationsFieldsM_eq_pure fields ha.right hf.right entries
    rw [violationsFieldsM, violationsFields]
    cases entries.lookup name with
    | some v =>
      dsimp only
      rw [ht v, map_pure, pure_bind, hfs, pure_bind]
    | none =>
      dsimp only
      rw [pure_bind, hfs, pure_bind]

theorem violationsEachM_eq_pure : ∀ (i : Nat) (ts : List Tree) (vs : List Json),
    Answers (referencesEach ts) ask allow → Answers (referencesEach ts) find follow →
      violationsEachM ask find i ts vs = pure (violationsEach allow follow i ts vs)
  | _, [], _, _, _ => by rw [violationsEachM, violationsEach] <;> exact nofun
  | _, _ :: _, [], _, _ => by rw [violationsEachM, violationsEach] <;> exact nofun
  | i, t :: ts, v :: vs, ha, hf => by
    rw [referencesEach] at ha hf
    have ht := violationsM_eq_pure t ha.left hf.left v
    have hts := violationsEachM_eq_pure (i + 1) ts vs ha.right hf.right
    rw [violationsEachM, violationsEach, ht, pure_bind, hts, pure_bind]

end

mutual

theorem normalizeM_eq_pure : ∀ (t : Tree), Answers t.references give normal → ∀ v,
    t.normalizeM give v = pure (t.normalize normal v)
  | leaf c, h, v => by
    rw [normalizeM, normalize]
    exact c.normalizeM_eq_pure h v
  | object fields policy, h, v => by
    cases v with
    | object entries =>
      have hf := normalizeFieldM_eq_pure fields h
      rw [normalizeM, normalize]
      simp only [hf, pure_bind, List.mapM_pure, List.filterMap_map]
      rfl
    | _ => simp only [normalizeM, normalize]
  | array t, h, v => by
    cases v with
    | array items =>
      have ht : t.normalizeM give = fun w => pure (t.normalize normal w) := funext (normalizeM_eq_pure t h)
      rw [normalizeM, normalize, ht, List.mapM_pure, pure_bind]
    | _ => simp only [normalizeM, normalize]
  | tuple ts, h, v => by
    cases v with
    | array items => rw [normalizeM, normalize, normalizeEachM_eq_pure ts items h, pure_bind]
    | _ => simp only [normalizeM, normalize]

theorem normalizeFieldM_eq_pure : ∀ (fields : List Field), Answers (referencesFields fields) give normal → ∀ k v,
    normalizeFieldM give fields k v = pure (normalizeField normal fields k v)
  | [], _, _, _ => by rw [normalizeFieldM, normalizeField]
  | ⟨name, optional, t⟩ :: fields, h, k, v => by
    rw [referencesFields] at h
    have ht := normalizeM_eq_pure t h.left v
    have hfs := normalizeFieldM_eq_pure fields h.right k v
    rw [normalizeFieldM, normalizeField, ht, hfs, map_pure]
    split <;> rfl

theorem normalizeEachM_eq_pure : ∀ (ts : List Tree) (vs : List Json),
    Answers (referencesEach ts) give normal → normalizeEachM give ts vs = pure (normalizeEach normal ts vs)
  | [], _, _ => by rw [normalizeEachM, normalizeEach] <;> exact nofun
  | _ :: _, [], _ => by rw [normalizeEachM, normalizeEach] <;> exact nofun
  | t :: ts, v :: vs, h => by
    rw [referencesEach] at h
    have ht := normalizeM_eq_pure t h.left v
    have hts := normalizeEachM_eq_pure ts vs h.right
    rw [normalizeEachM, normalizeEach, ht, pure_bind, hts, pure_bind]

end

end Tree

end Plain

end Monadic

namespace Tree

variable {allow allow' : String → Json → Bool} {follow follow' : String → Json → List Violation}
  {normal normal' : String → Json → Json}

/-- **What a tree diagnoses depends on the names alone that it refers to.** -/
theorem violations_congr_of_references (t : Tree) (ha : ∀ name ∈ t.references, allow name = allow' name)
    (hf : ∀ name ∈ t.references, follow name = follow' name) (v : Json) :
      t.violations allow follow v = t.violations allow' follow' v := by
  have hasked : Answers (m := Id) t.references allow allow' := fun name hn => congrFun (ha name hn)
  have hfound : Answers (m := Id) t.references follow follow' := fun name hn => congrFun (hf name hn)
  have hself : t.violationsM (m := Id) allow follow v = t.violations allow follow v :=
    t.violationsM_eq_pure (fun _ _ _ => rfl) (fun _ _ _ => rfl) v
  exact hself.symm.trans (t.violationsM_eq_pure hasked hfound v)

/-- A normal form depends on the names alone that the tree refers to. -/
theorem normalize_congr_of_references (t : Tree) (h : ∀ name ∈ t.references, normal name = normal' name) (v : Json) :
    t.normalize normal v = t.normalize normal' v := by
  have hgiven : Answers (m := Id) t.references normal normal' := fun name hn => congrFun (h name hn)
  have hself : t.normalizeM (m := Id) normal v = t.normalize normal v := t.normalizeM_eq_pure (fun _ _ _ => rfl) v
  exact hself.symm.trans (t.normalizeM_eq_pure hgiven v)

end Tree

end Assay
