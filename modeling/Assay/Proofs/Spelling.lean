import Assay.Proofs.Lexing
/-!
# Spelled texts

`Spells s ls` says that a text is cut into `ls` wherever a delimiter follows it.  Names, numbers, quoted strings and
comparators spell themselves, and whatever the printer puts between or around spelled texts, its blanks, bars, commas,
brackets and parentheses, is spelled with them.
-/
namespace Assay

/-- The text is cut into the lexemes, whatever delimiter follows. -/
def Spells (s : String) (ls : List Lexeme) : Prop := ∀ tail, Delimits tail → Scans s.toList ls tail

namespace Spells

variable {s t : String} {ls ls' : List Lexeme}

/-- Single characters around a text, of which those after it delimit. -/
theorem enclosed (h : Spells s ls) (before : String) (lsb : List Lexeme) (after : String) (lsa : List Lexeme)
    (hb : before.toList.map Lexeme.ofChar? = lsb.map some) (ha : after.toList.map Lexeme.ofChar? = lsa.map some)
    (hd : ∀ tail, Delimits tail → Delimits (after.toList ++ tail)) :
    Spells (before ++ s ++ after) (lsb ++ ls ++ lsa) := by
  intro tail ht
  rw [String.toList_append, String.toList_append]
  exact ((Scans.chars hb).append (h _ (hd tail ht))).append (Scans.chars ha)

theorem space (h : Spells s ls) (h' : Spells t ls') : Spells (s ++ " " ++ t) (ls ++ ls') := by
  intro tail ht
  have hd : Delimits (' ' :: t.toList ++ tail) := delimits_cons (by decide)
  have hs : Scans (' ' :: t.toList) ls' tail := (Scans.blank (c := ' ') (by decide)).append (h' tail ht)
  have := (h _ hd).append hs
  simpa using this

theorem number {x : Double} (hx : x.isFinite = true) : Spells x.render [.number x] := by
  cases x with
  | finite x =>
    intro tail ht
    obtain ⟨whole, fraction, hr, hw, hd, hv⟩ := Double.exists_render x
    rw [hr, ← hv]
    exact Scans.number hw hd ht
  | _ => cases hx

theorem comparator (o : Comparator) : Spells o.symbol [.comparator o] := fun _ ht => Scans.comparator o ht

theorem quoted (s : String) : Spells (Literal.quote s) [.quoted s] := fun tail _ => Scans.quoted s tail

end Spells

/-- A name of the lexer: a letter or an underscore, and letters, digits and underscores after it. -/
def isName (n : String) : Bool :=
  match n.toList with
  | [] => false
  | c :: cs => isNameStart c && cs.all isNameChar

theorem exists_of_isName {n : String} (h : isName n = true) :
    ∃ c cs, n.toList = c :: cs ∧ isNameStart c = true ∧ ∀ d ∈ cs, isNameChar d = true := by
  unfold isName at h
  split at h
  · cases h
  · rename_i c cs hn
    obtain ⟨hc, hcs⟩ := Bool.and_eq_true_iff.1 h
    exact ⟨c, cs, hn, hc, List.all_eq_true.1 hcs⟩

namespace Spells

theorem name {n : String} (h : isName n = true) : Spells n [.identifier n] := by
  intro tail ht
  obtain ⟨c, cs, hn, hc, hcs⟩ := exists_of_isName h
  have hs := Scans.name hc hcs (Or.inl ht)
  rwa [← hn, String.ofList_toList] at hs

theorem suffix {n s : String} (h : isName n = true) (hs : isName s = true) :
    Spells (n ++ "." ++ s) [.identifier n, .dot, .identifier s] := by
  intro tail ht
  obtain ⟨c, cs, hn, hc, hcs⟩ := exists_of_isName h
  have hname : Scans n.toList [.identifier n] ('.' :: s.toList ++ tail) := by
    have hd := Scans.name hc hcs (Or.inr ⟨s.toList ++ tail, rfl⟩)
    rwa [← hn, String.ofList_toList] at hd
  have hdot : Scans ('.' :: s.toList) [.dot, .identifier s] tail :=
    (Scans.char (c := '.') rfl).append (name hs tail ht)
  simpa using hname.append hdot

variable {s : String} {ls : List Lexeme}

theorem brackets (h : Spells s ls) : Spells (s ++ "[]") (ls ++ [.openBracket, .closeBracket]) := by
  have := h.enclosed "" [] "[]" [.openBracket, .closeBracket] rfl rfl
    fun tail _ => delimits_cons (by decide)
  simpa using this

theorem group (h : Spells s ls) :
    Spells ("(" ++ s ++ ")[]") (.openParen :: ls ++ [.closeParen] ++ [.openBracket, .closeBracket]) := by
  have := h.enclosed "(" [.openParen] ")[]" [.closeParen, .openBracket, .closeBracket] rfl rfl
    fun tail _ => delimits_cons (by decide)
  simpa using this

theorem tuple (h : Spells s ls) : Spells ("[" ++ s ++ "]") (.openBracket :: ls ++ [.closeBracket]) :=
  h.enclosed "[" [.openBracket] "]" [.closeBracket] rfl rfl fun tail _ => delimits_cons (by decide)

theorem optional (h : Spells s ls) : Spells (s ++ "?") (ls ++ [.question]) := by
  have := h.enclosed "" [] "?" [.question] rfl rfl
    fun tail _ => delimits_cons (by decide)
  simpa using this

theorem bar {t : String} {ls' : List Lexeme} (h : Spells s ls) (h' : Spells t ls') :
    Spells (s ++ " | " ++ t) (ls ++ .pipe :: ls') := by
  intro tail ht
  have hs : Scans (' ' :: '|' :: ' ' :: t.toList) (.pipe :: ls') tail :=
    (Scans.blank (c := ' ') (by decide)).append ((Scans.char (c := '|') rfl).append
      ((Scans.blank (c := ' ') (by decide)).append (h' tail ht)))
  have := (h (' ' :: '|' :: ' ' :: t.toList ++ tail) (delimits_cons (by decide))).append hs
  simpa using this

theorem comma {t : String} {ls' : List Lexeme} (h : Spells s ls) (h' : Spells t ls') :
    Spells (s ++ ", " ++ t) (ls ++ .comma :: ls') := by
  intro tail ht
  have hs : Scans (',' :: ' ' :: t.toList) (.comma :: ls') tail :=
    (Scans.char (c := ',') rfl).append ((Scans.blank (c := ' ') (by decide)).append (h' tail ht))
  have := (h (',' :: ' ' :: t.toList ++ tail) (delimits_cons (by decide))).append hs
  simpa using this

end Spells

end Assay
