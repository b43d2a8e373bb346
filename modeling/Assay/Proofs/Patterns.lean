import Assay.Format.Pattern
import Mathlib.Data.List.Forall2
/-!
# What a pattern accepts

A pattern accepts the texts that are cut into pieces, one for each of its runs (`Pattern.accepts_iff`): the search
for how many characters each class takes, and its giving some of them back, find a cut wherever there is one.
-/
namespace Assay

namespace Pattern

/-- So many characters may stand there. -/
def Repetition.Fits : Repetition → Nat → Prop
  | exactly n, m => m = n
  | atLeast n, m => n ≤ m

/-- The piece of a text that a run may stand for. -/
structure Run.Spells (r : Run) (piece : List Char) : Prop where
  fits : r.count.Fits piece.length
  contains : ∀ c ∈ piece, r.chars.contains c = true

variable {k : CharClass} {next : List Char → Bool} {cs : List Char}

theorem times_iff : ∀ {n : Nat} {cs : List Char}, k.times next n cs = true ↔
    ∃ piece rest, cs = piece ++ rest ∧ piece.length = n ∧ (∀ c ∈ piece, k.contains c = true) ∧ next rest = true
  | 0, cs => by
    rw [CharClass.times]
    constructor
    · exact fun h => ⟨[], cs, rfl, rfl, nofun, h⟩
    · rintro ⟨piece, rest, rfl, hlen, -, h⟩
      rwa [List.eq_nil_of_length_eq_zero hlen, List.nil_append]
  | n + 1, [] => by
    refine ⟨nofun, ?_⟩
    rintro ⟨piece, rest, hcs, hlen, -⟩
    rw [(List.append_eq_nil_iff.1 hcs.symm).1] at hlen
    cases hlen
  | n + 1, c :: cs => by
    rw [CharClass.times, Bool.and_eq_true, times_iff]
    constructor
    · rintro ⟨hc, piece, rest, rfl, rfl, hpiece, h⟩
      exact ⟨c :: piece, rest, rfl, rfl, List.forall_mem_cons.2 ⟨hc, hpiece⟩, h⟩
    · rintro ⟨piece, rest, hcs, hlen, hpiece, h⟩
      cases piece with
      | nil => cases hlen
      | cons d piece =>
        cases hcs
        obtain ⟨hc, hpiece⟩ := List.forall_mem_cons.1 hpiece
        exact ⟨hc, piece, rest, rfl, Nat.succ.inj hlen, hpiece, h⟩

theorem star_iff : ∀ {cs : List Char}, k.star next cs = true ↔
    ∃ piece rest, cs = piece ++ rest ∧ (∀ c ∈ piece, k.contains c = true) ∧ next rest = true
  | [] => by
    rw [CharClass.star]
    constructor
    · exact fun h => ⟨[], [], rfl, nofun, h⟩
    · rintro ⟨piece, rest, hcs, -, h⟩
      rwa [(List.append_eq_nil_iff.1 hcs.symm).2] at h
  | c :: cs => by
    rw [CharClass.star, Bool.or_eq_true, Bool.and_eq_true, star_iff]
    constructor
    · rintro (⟨hc, piece, rest, rfl, hpiece, h⟩ | h)
      · exact ⟨c :: piece, rest, rfl, List.forall_mem_cons.2 ⟨hc, hpiece⟩, h⟩
      · exact ⟨[], c :: cs, rfl, nofun, h⟩
    · rintro ⟨piece, rest, hcs, hpiece, h⟩
      cases piece with
      | nil => exact Or.inr (hcs ▸ h)
      | cons d piece =>
        cases hcs
        obtain ⟨hc, hpiece⟩ := List.forall_mem_cons.1 hpiece
        exact Or.inl ⟨hc, piece, rest, rfl, hpiece, h⟩

/-- **A run takes a piece off the front**, as long as its repetition asks for and of its class. -/
theorem before_iff {r : Run} : r.before next cs = true ↔
    ∃ piece rest, cs = piece ++ rest ∧ r.Spells piece ∧ next rest = true := by
  obtain ⟨k, count⟩ := r
  cases count with
  | exactly n =>
    refine times_iff.trans (exists₂_congr fun piece rest => and_congr_right fun _ => ?_)
    exact ⟨fun ⟨hlen, hpiece, h⟩ => ⟨⟨hlen, hpiece⟩, h⟩, fun ⟨⟨hlen, hpiece⟩, h⟩ => ⟨hlen, hpiece, h⟩⟩
  | atLeast n =>
    -- the piece is cut in two: the characters that must stand there, and those that the class takes besides
    refine times_iff.trans ?_
    simp only [star_iff]
    constructor
    · rintro ⟨first, _, rfl, rfl, hfirst, more, rest, rfl, hmore, h⟩
      refine ⟨first ++ more, rest, (List.append_assoc ..).symm, ⟨?_, List.forall_mem_append.2 ⟨hfirst, hmore⟩⟩, h⟩
      rw [List.length_append]
      exact Nat.le_add_right _ _
    · rintro ⟨piece, rest, rfl, ⟨hfits, hpiece⟩, h⟩
      rw [← List.take_append_drop n piece] at hpiece
      obtain ⟨hfirst, hmore⟩ := List.forall_mem_append.1 hpiece
      refine ⟨piece.take n, piece.drop n ++ rest, ?_, List.length_take_of_le hfits, hfirst, _, rest, rfl, hmore, h⟩
      rw [← List.append_assoc, List.take_append_drop]

theorem accepts_nil_iff : accepts [] cs = true ↔ cs = [] := List.isEmpty_iff

theorem accepts_cons_iff {r : Run} {p : Pattern} : accepts (r :: p) cs = true ↔
    ∃ piece rest, cs = piece ++ rest ∧ r.Spells piece ∧ p.accepts rest = true := before_iff

/-- **A pattern accepts a text exactly when the text is cut into pieces**, one for each run. -/
theorem accepts_iff : ∀ {p : Pattern} {cs : List Char}, p.accepts cs = true ↔
    ∃ pieces, List.Forall₂ Run.Spells p pieces ∧ cs = pieces.flatten
  | [], cs => by
    rw [accepts_nil_iff]
    refine ⟨fun h => ⟨[], .nil, h⟩, ?_⟩
    rintro ⟨pieces, hp, rfl⟩
    cases hp
    rfl
  | r :: p, cs => by
    rw [accepts_cons_iff]
    constructor
    · rintro ⟨piece, rest, rfl, hr, h⟩
      obtain ⟨pieces, hp, rfl⟩ := accepts_iff.1 h
      exact ⟨piece :: pieces, .cons hr hp, rfl⟩
    · rintro ⟨pieces, hp, rfl⟩
      cases hp with
      | cons hr hp => exact ⟨_, _, rfl, hr, accepts_iff.2 ⟨_, hp, rfl⟩⟩

theorem accepts_singleton_iff {r : Run} : accepts [r] cs = true ↔ r.Spells cs := by
  rw [accepts_cons_iff]
  constructor
  · rintro ⟨piece, rest, rfl, hr, hrest⟩
    rwa [accepts_nil_iff.1 hrest, List.append_nil]
  · exact fun hr => ⟨cs, [], (List.append_nil cs).symm, hr, rfl⟩

/-- Patterns one after the other accept texts one after the other. -/
theorem accepts_append_iff {p q : Pattern} : (p ++ q).accepts cs = true ↔
    ∃ front rest, cs = front ++ rest ∧ p.accepts front = true ∧ q.accepts rest = true := by
  simp only [accepts_iff]
  constructor
  · rintro ⟨pieces, hp, rfl⟩
    have hfront := (List.forall₂_take_append pieces p q hp.flip).flip
    have hrest := (List.forall₂_drop_append pieces p q hp.flip).flip
    refine ⟨_, _, ?_, ⟨_, hfront, rfl⟩, _, hrest, rfl⟩
    rw [← List.flatten_append, List.take_append_drop]
  · rintro ⟨_, _, rfl, ⟨front, hp, rfl⟩, rest, hq, rfl⟩
    exact ⟨front ++ rest, List.rel_append hp hq, List.flatten_append.symm⟩

theorem accepts_one_iff {p : Pattern} : accepts (⟨k, .exactly 1⟩ :: p) cs = true ↔
    ∃ c rest, cs = c :: rest ∧ k.contains c = true ∧ p.accepts rest = true := by
  rw [accepts_cons_iff]
  constructor
  · rintro ⟨piece, rest, rfl, ⟨hlen, hpiece⟩, hrest⟩
    obtain ⟨c, rfl⟩ := List.length_eq_one_iff.1 hlen
    exact ⟨c, rest, rfl, hpiece c List.mem_cons_self, hrest⟩
  · rintro ⟨c, rest, rfl, hc, hrest⟩
    exact ⟨[c], rest, rfl, ⟨rfl, List.forall_mem_singleton.2 hc⟩, hrest⟩

theorem accepts_text_iff {s : String} : (text s).accepts cs = true ↔ cs = s.toList := by
  unfold text
  generalize s.toList = ds
  induction ds generalizing cs with
  | nil => exact accepts_nil_iff
  | cons d ds ih =>
    rw [List.map_cons, accepts_one_iff]
    simp only [ih, CharClass.contains, Item.contains, List.any_cons, List.any_nil, Bool.or_false, Bool.bne_false,
      beq_iff_eq]
    constructor
    · rintro ⟨_, _, rfl, rfl, rfl⟩
      rfl
    · rintro rfl
      exact ⟨d, ds, rfl, rfl, rfl⟩

/-- **Patterns with a text between them** accept texts with that text between them. -/
theorem accepts_intercalate_iff {s : String} : ∀ {ps : List Pattern} {cs : List Char},
    accepts ((text s).intercalate ps) cs = true ↔
      ∃ pieces, List.Forall₂ (fun p piece => p.accepts piece = true) ps pieces ∧ cs = s.toList.intercalate pieces
  | [], cs => by
    rw [List.intercalate_nil, accepts_nil_iff]
    refine ⟨fun h => ⟨[], .nil, h⟩, ?_⟩
    rintro ⟨pieces, hp, rfl⟩
    cases hp
    rfl
  | [p], cs => by
    rw [List.intercalate_singleton]
    constructor
    · exact fun h => ⟨[cs], .cons h .nil, List.intercalate_singleton.symm⟩
    · rintro ⟨pieces, hp, rfl⟩
      cases hp with
      | cons h hnil =>
        cases hnil
        rwa [List.intercalate_singleton]
  | p :: q :: ps, cs => by
    have hne : ∀ {pieces}, List.Forall₂ (fun p piece => p.accepts piece = true) (q :: ps) pieces → pieces ≠ [] := by
      rintro _ ⟨⟩
      exact List.cons_ne_nil _ _
    rw [List.intercalate_cons_of_ne_nil (List.cons_ne_nil q ps), accepts_append_iff]
    simp only [accepts_append_iff, accepts_text_iff, accepts_intercalate_iff]
    constructor
    · rintro ⟨_, rest, rfl, ⟨piece, _, rfl, hp, rfl⟩, pieces, hps, rfl⟩
      exact ⟨piece :: pieces, .cons hp hps, (List.intercalate_cons_of_ne_nil (hne hps)).symm⟩
    · rintro ⟨pieces, hps, rfl⟩
      cases hps with
      | @cons _ piece _ pieces hp hps =>
        exact ⟨piece ++ s.toList, _, List.intercalate_cons_of_ne_nil (hne hps), ⟨piece, _, rfl, hp, rfl⟩, pieces, hps,
          rfl⟩

/-- Groups of one class, with a text between them. -/
theorem accepts_groups_iff {s : String} {lengths : List Nat} :
    accepts ((text s).intercalate (lengths.map fun n => [⟨k, .exactly n⟩])) cs = true ↔
      ∃ groups, cs = s.toList.intercalate groups ∧ groups.map List.length = lengths ∧
        ∀ piece ∈ groups, ∀ c ∈ piece, k.contains c = true := by
  rw [accepts_intercalate_iff]
  refine exists_congr fun groups => and_comm.trans (and_congr_right fun _ => ?_)
  rw [List.forall₂_map_left_iff]
  simp only [accepts_singleton_iff]
  rw [and_comm, ← List.forall₂_eq_eq_eq, List.forall₂_map_left_iff, ← List.forall₂_and_left]
  constructor
  · exact fun h => h.flip.imp fun _ _ hr => ⟨hr.contains, hr.fits⟩
  · exact fun h => h.flip.imp fun _ _ hr => ⟨hr.2, hr.1⟩

/-- **A class before a larger one is decided by one character**: those after the first may as well belong to the larger
class. -/
theorem accepts_adjacent_iff {l : CharClass} (hl : ∀ c, k.contains c = true → l.contains c = true) :
    accepts [⟨k, .atLeast 1⟩, ⟨l, .atLeast 0⟩] cs = true ↔
      ∃ c rest, cs = c :: rest ∧ k.contains c = true ∧ ∀ d ∈ rest, l.contains d = true := by
  rw [accepts_cons_iff]
  simp only [accepts_singleton_iff]
  constructor
  -- what the first class took after its first character goes to the larger one
  · rintro ⟨piece, rest, rfl, ⟨hfits, hpiece⟩, -, hrest⟩
    cases piece with
    | nil => cases hfits
    | cons c more =>
      obtain ⟨hc, hmore⟩ := List.forall_mem_cons.1 hpiece
      refine ⟨c, more ++ rest, rfl, hc, List.forall_mem_append.2 ⟨fun d hd => hl d (hmore d hd), hrest⟩⟩
  · rintro ⟨c, rest, rfl, hc, hrest⟩
    exact ⟨[c], rest, rfl, ⟨Nat.le_refl 1, List.forall_mem_singleton.2 hc⟩, Nat.zero_le _, hrest⟩

end Pattern

end Assay
