import ProjectRegistry.Json.Reader
import ProjectRegistry.Proofs.Text.Digits

/-!
# Spellings of JSON

A tree has many texts: blanks around its parts, exponents with either letter and perhaps a plus, and
characters of strings as themselves, by a letter or by their numbers. Which texts these are is said
here by the grammar of JSON, apart from any reader. What `Tree.print` writes is one of them.

A string is spelled in pieces, and its pieces are read in the manner of UTF-16: a character beyond
the first 65536 is a pair of units. Pieces that are no text leave the string without content.
-/

namespace ProjectRegistry.Json

/-! ## Numbers -/

/-- A number as JSON spells it: digits without needless zeros in front, and digits behind a point
and an exponent if there are any. -/
structure Numeral.WellFormed (n : Numeral) : Prop where
  whole_ne : n.whole ≠ []
  whole {c : Char} : c ∈ n.whole → c.isDigit = true
  head : n.whole.head? = some '0' → n.whole = ['0']
  fraction {c : Char} : c ∈ n.fraction → c.isDigit = true
  exponent {minus : Bool} {ds : List Char} :
    n.exponent = some (minus, ds) → ds ≠ [] ∧ ∀ c ∈ ds, c.isDigit = true

def Numeral.printFraction (n : Numeral) : List Char :=
  if n.fraction.isEmpty then [] else '.' :: n.fraction

/-- An exponent begins with a letter in either case; a plus may be left out. -/
inductive ExponentSpelled : Option (Bool × List Char) → List Char → Prop
  | absent : ExponentSpelled none []
  | minus {e : Char} {ds : List Char} (he : e = 'e' ∨ e = 'E') :
    ExponentSpelled (some (true, ds)) (e :: '-' :: ds)
  | plus {e : Char} {ds : List Char} (he : e = 'e' ∨ e = 'E') :
    ExponentSpelled (some (false, ds)) (e :: '+' :: ds)
  | plain {e : Char} {ds : List Char} (he : e = 'e' ∨ e = 'E') :
    ExponentSpelled (some (false, ds)) (e :: ds)

structure Numeral.Spelled (n : Numeral) (cs : List Char) : Prop where
  wellFormed : n.WellFormed
  eq_append : ∃ exponent, ExponentSpelled n.exponent exponent ∧
    cs = (if n.negative then ['-'] else []) ++ (n.whole ++ (n.printFraction ++ exponent))

theorem Numeral.spelled_print {n : Numeral} (h : n.WellFormed) : n.Spelled n.print := by
  refine ⟨h, _, ?_, by rw [print, List.append_assoc, List.append_assoc]; rfl⟩
  rcases n.exponent with _ | ⟨_ | _, ds⟩
  · exact .absent
  · exact .plus (.inl rfl)
  · exact .minus (.inl rfl)

/-! ## Strings -/

/-- A piece of a string between its quotes. What has to be escaped are quotes, backslashes and
control characters; anything may be. -/
inductive Piece.Spelled : Piece → List Char → Prop
  | plain {c : Char} (hquote : c ≠ '"') (hbackslash : c ≠ '\\') (h : ¬c.toNat < 32) :
    Spelled (.char c) [c]
  | named {e c : Char} (h : namedEscape? e = some c) : Spelled (.char c) ['\\', e]
  | unit {p q r s : Char} {n : Nat} (h : fourFigures? p q r s = some n) :
    Spelled (.unit n) ['\\', 'u', p, q, r, s]

inductive PiecesSpelled : List Piece → List Char → Prop
  | nil : PiecesSpelled [] []
  | cons {p : Piece} {ps : List Piece} {text body : List Char} (hp : p.Spelled text)
    (hps : PiecesSpelled ps body) : PiecesSpelled (p :: ps) (text ++ body)

/-- What characters pieces stand for: a unit for the character of its number, and two halves of a
surrogate pair for one beyond these. -/
inductive Denotes : List Piece → List Char → Prop
  | nil : Denotes [] []
  | char {ps : List Piece} {cs : List Char} (c : Char) (hps : Denotes ps cs) :
    Denotes (.char c :: ps) (c :: cs)
  | unit {ps : List Piece} {cs : List Char} (c : Char) (hc : c.toNat < 0x10000)
    (hps : Denotes ps cs) : Denotes (.unit c.toNat :: ps) (c :: cs)
  | pair {ps : List Piece} {cs : List Char} (c : Char) (hc : 0x10000 ≤ c.toNat)
    (hps : Denotes ps cs) :
    Denotes (.unit (0xD800 + (c.toNat - 0x10000) / 0x400) ::
      .unit (0xDC00 + (c.toNat - 0x10000) % 0x400) :: ps) (c :: cs)

/-- A string in its quotes; it is without content if its pieces stand for nothing. -/
inductive StringSpelled : Option String → List Char → Prop
  | text {s : String} {ps : List Piece} {body : List Char} (hps : PiecesSpelled ps body)
    (hs : Denotes ps s.toList) : StringSpelled (some s) ('"' :: (body ++ ['"']))
  | torn {ps : List Piece} {body : List Char} (hps : PiecesSpelled ps body)
    (hs : ∀ cs, ¬Denotes ps cs) : StringSpelled none ('"' :: (body ++ ['"']))

/-- No character has the number of half a surrogate pair. -/
theorem toNat_bounds (c : Char) :
    c.toNat < 0xD800 ∨ 0xDFFF < c.toNat ∧ c.toNat < 0x110000 := c.valid

theorem fourFigures?_two (n : Nat) (h : n < 32) :
    fourFigures? '0' '0' (n / 16).digitChar (n % 16).digitChar = some n := by
  have hall : ∀ n, n < 32 →
      fourFigures? '0' '0' (n / 16).digitChar (n % 16).digitChar = some n := by
    decide
  exact hall n h

/-- A character as it is printed is a piece that stands for it. -/
theorem spelled_escaped (c : Char) : ∃ p : Piece, p.Spelled (escaped c) ∧
    ∀ {ps : List Piece} {cs : List Char}, Denotes ps cs → Denotes (p :: ps) (c :: cs) := by
  have hnamed {e : Char} (h : namedEscape? e = some c) : ∃ p : Piece, p.Spelled ['\\', e] ∧
      ∀ {ps : List Piece} {cs : List Char}, Denotes ps cs → Denotes (p :: ps) (c :: cs) :=
    ⟨.char c, .named h, .char c⟩
  unfold escaped
  split
  · next h => exact hnamed (by rw [h]; decide)
  split
  · next h => exact hnamed (by rw [h]; decide)
  split
  · next h => exact hnamed (by rw [h]; decide)
  split
  · next h => exact hnamed (by rw [h]; decide)
  split
  · next h => exact hnamed (by rw [h]; decide)
  split
  · next h =>
    have hc : c = '\x08' := Char.toNat_inj.1 h
    exact hnamed (by rw [hc]; decide)
  split
  · next h =>
    have hc : c = '\x0c' := Char.toNat_inj.1 h
    exact hnamed (by rw [hc]; decide)
  split
  · next h =>
    exact ⟨.unit c.toNat, .unit (fourFigures?_two c.toNat h), .unit c (by omega)⟩
  · next hquote hbackslash _ _ _ _ _ h => exact ⟨.char c, .plain hquote hbackslash h, .char c⟩

theorem spelled_quoted (cs : List Char) :
    ∃ ps, PiecesSpelled ps (cs.flatMap escaped) ∧ Denotes ps cs := by
  induction cs with
  | nil => exact ⟨[], .nil, .nil⟩
  | cons c cs ih =>
    obtain ⟨ps, hps, hcs⟩ := ih
    obtain ⟨p, hp, hc⟩ := spelled_escaped c
    exact ⟨p :: ps, .cons hp hps, hc hcs⟩

theorem spelled_printString (s : Option String) : StringSpelled s (printString s) := by
  cases s with
  | none =>
    have hfigures : fourFigures? 'd' '8' '0' '0' = some 0xD800 := by decide
    refine .torn (.cons (.unit hfigures) .nil) fun cs hcs => ?_
    generalize hn : 0xD800 = n at hcs
    cases hcs with
    | unit c hc _ =>
      have hbounds := toNat_bounds c
      omega
  | some s =>
    obtain ⟨ps, hps, hs⟩ := spelled_quoted s.toList
    exact .text hps hs

/-! ## Values -/

/-- Whether a text is of blanks only. -/
def Spaces (cs : List Char) : Prop := ∀ c ∈ cs, isSpace c = true

/-- Whether a text is of a kind, up to blanks around it. -/
def Padded (spelled : List Char → Prop) (cs : List Char) : Prop :=
  ∃ before text after, Spaces before ∧ spelled text ∧ Spaces after ∧
    cs = before ++ (text ++ after)

theorem Padded.of_bare {spelled : List Char → Prop} {cs : List Char} (h : spelled cs) :
    Padded spelled cs :=
  ⟨[], cs, [], List.forall_mem_nil _, h, List.forall_mem_nil _, (List.append_nil cs).symm⟩

mutual

/-- The texts of a tree that begin and end with it. -/
def Tree.Spelled : Tree → List Char → Prop
  | .null, cs => cs = Tree.null.print
  | .bool b, cs => cs = (Tree.bool b).print
  | .number n, cs => n.Spelled cs
  | .string s, cs => StringSpelled s cs
  | .array ts, cs => ∃ inner, itemsSpelled ts inner ∧ cs = '[' :: (inner ++ [']'])
  | .object ms, cs => ∃ inner, membersSpelled ms inner ∧ cs = '\x7b' :: (inner ++ ['\x7d'])

/-- What stands between the brackets of an array. -/
def itemsSpelled : List Tree → List Char → Prop
  | [], cs => Spaces cs
  | t :: ts, cs =>
    ∃ item more, Padded t.Spelled item ∧ moreItemsSpelled ts more ∧ cs = item ++ more

def moreItemsSpelled : List Tree → List Char → Prop
  | [], cs => cs = []
  | t :: ts, cs =>
    ∃ item more, Padded t.Spelled item ∧ moreItemsSpelled ts more ∧ cs = ',' :: (item ++ more)

/-- What stands between the braces of an object. -/
def membersSpelled : List (Option String × Tree) → List Char → Prop
  | [], cs => Spaces cs
  | (k, t) :: ms, cs =>
    ∃ key item more, Padded (StringSpelled k) key ∧ Padded t.Spelled item ∧
      moreMembersSpelled ms more ∧ cs = key ++ ':' :: (item ++ more)

def moreMembersSpelled : List (Option String × Tree) → List Char → Prop
  | [], cs => cs = []
  | (k, t) :: ms, cs =>
    ∃ key item more, Padded (StringSpelled k) key ∧ Padded t.Spelled item ∧
      moreMembersSpelled ms more ∧ cs = ',' :: (key ++ ':' :: (item ++ more))

end

/-- Whether a text is that of a tree, with blanks around it or not. -/
def Tree.SpelledBy (t : Tree) (s : String) : Prop := Padded t.Spelled s.toList

/-! ## Printed trees -/

mutual

/-- Whether all numbers in a tree are well-formed. -/
def Tree.WellFormed : Tree → Prop
  | .null => True
  | .bool _ => True
  | .number n => n.WellFormed
  | .string _ => True
  | .array ts => treesWellFormed ts
  | .object ms => membersWellFormed ms

def treesWellFormed : List Tree → Prop
  | [] => True
  | t :: rest => t.WellFormed ∧ treesWellFormed rest

def membersWellFormed : List (Option String × Tree) → Prop
  | [] => True
  | (_, t) :: rest => t.WellFormed ∧ membersWellFormed rest

end

theorem treesWellFormed_iff {ts : List Tree} : treesWellFormed ts ↔ ∀ t ∈ ts, t.WellFormed := by
  induction ts with
  | nil => simp [treesWellFormed]
  | cons t rest ih => simp [treesWellFormed, ih]

theorem membersWellFormed_iff {ms : List (Option String × Tree)} :
    membersWellFormed ms ↔ ∀ m ∈ ms, m.2.WellFormed := by
  induction ms with
  | nil => simp [membersWellFormed]
  | cons m rest ih => simp [membersWellFormed, ih]

mutual

/-- A tree is spelled by what is printed for it. -/
theorem Tree.spelled_print : ∀ {t : Tree}, t.WellFormed → t.Spelled t.print
  | .null, _ => rfl
  | .bool _, _ => rfl
  | .number _, h => Numeral.spelled_print h
  | .string s, _ => spelled_printString s
  | .array [], _ => ⟨[], List.forall_mem_nil _, rfl⟩
  | .array (t :: ts), h => by
    obtain ⟨more, hmore, hprint⟩ := spelled_printMoreItems h.2
    refine ⟨_, ⟨_, more, .of_bare (Tree.spelled_print h.1), hmore, rfl⟩, ?_⟩
    rw [Tree.print, printItems, hprint, List.append_assoc]
  | .object [], _ => ⟨[], List.forall_mem_nil _, rfl⟩
  | .object ((k, t) :: ms), h => by
    obtain ⟨more, hmore, hprint⟩ := spelled_printMoreMembers h.2
    refine ⟨_, ⟨_, _, more, .of_bare (spelled_printString k), .of_bare (Tree.spelled_print h.1),
      hmore, rfl⟩, ?_⟩
    rw [Tree.print, printMembers, hprint]
    simp

theorem spelled_printMoreItems : ∀ {ts : List Tree}, treesWellFormed ts →
    ∃ more, moreItemsSpelled ts more ∧ printMoreItems ts = more ++ [']']
  | [], _ => ⟨[], rfl, rfl⟩
  | t :: ts, h => by
    obtain ⟨more, hmore, hprint⟩ := spelled_printMoreItems h.2
    refine ⟨_, ⟨_, more, .of_bare (Tree.spelled_print h.1), hmore, rfl⟩, ?_⟩
    rw [printMoreItems, hprint]
    simp

theorem spelled_printMoreMembers : ∀ {ms : List (Option String × Tree)}, membersWellFormed ms →
    ∃ more, moreMembersSpelled ms more ∧ printMoreMembers ms = more ++ ['\x7d']
  | [], _ => ⟨[], rfl, rfl⟩
  | (k, t) :: ms, h => by
    obtain ⟨more, hmore, hprint⟩ := spelled_printMoreMembers h.2
    refine ⟨_, ⟨_, _, more, .of_bare (spelled_printString k), .of_bare (Tree.spelled_print h.1),
      hmore, rfl⟩, ?_⟩
    rw [printMoreMembers, hprint]
    simp

end

end ProjectRegistry.Json
