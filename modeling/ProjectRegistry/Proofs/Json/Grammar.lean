import ProjectRegistry.Proofs.Json.Reader

/-!
# Reading nothing else

What the reader takes for a tree is one of its spellings, part by part: the digits of a number, the
pieces of a string, the items and members behind their punctuation. With the other direction this
makes reading a text the same as finding it spelled by the grammar.

The induction over values is on the fuel, which each part of a value is read with less of.
-/

namespace ProjectRegistry.Json

/-! ## Numbers -/

variable {cs ds rest : List Char}

theorem append_of_digitRun (h : digitRun cs = some (ds, rest)) :
    cs = ds ++ rest ∧ ds ≠ [] ∧ ∀ c ∈ ds, c.isDigit = true := by
  simp only [digitRun] at h
  split at h
  · cases h
  · next hne =>
    cases h
    exact ⟨List.takeWhile_append_dropWhile.symm, by simpa using hne,
      fun _ => List.mem_takeWhile_imp⟩

theorem append_of_wholePart (h : wholePart cs = some (ds, rest)) :
    cs = ds ++ rest ∧ ds ≠ [] ∧ (∀ c ∈ ds, c.isDigit = true) ∧
      (ds.head? = some '0' → ds = ['0']) := by
  rw [wholePart] at h
  split at h
  · next ds' rest' hrun =>
    split at h
    · cases h
    · next hzero =>
      cases h
      obtain ⟨hcs, hne, hds⟩ := append_of_digitRun hrun
      exact ⟨hcs, hne, hds, fun hhead => by_contra fun hds => hzero ⟨hhead, hds⟩⟩
  · cases h

theorem append_of_fractionPart (h : fractionPart cs = some (ds, rest)) :
    cs = (if ds.isEmpty then [] else '.' :: ds) ++ rest ∧ ∀ c ∈ ds, c.isDigit = true := by
  unfold fractionPart at h
  split at h
  · next digits =>
    obtain ⟨hcs, hne, hds⟩ := append_of_digitRun h
    rw [if_neg (by simpa using hne), hcs]
    exact ⟨rfl, hds⟩
  · cases h
    exact ⟨rfl, List.forall_mem_nil _⟩

theorem append_of_exponentSign {e : Char} (he : e = 'e' ∨ e = 'E') (cs : List Char) :
    ∃ sign, cs = sign ++ (exponentSign cs).2 ∧
      ∀ ds, ExponentSpelled (some ((exponentSign cs).1, ds)) (e :: (sign ++ ds)) := by
  unfold exponentSign
  split
  · exact ⟨['-'], rfl, fun ds => .minus he⟩
  · exact ⟨['+'], rfl, fun ds => .plus he⟩
  · exact ⟨[], rfl, fun ds => .plain he⟩

theorem append_of_exponentPart {exponent : Option (Bool × List Char)}
    (h : exponentPart cs = some (exponent, rest)) :
    ∃ text, ExponentSpelled exponent text ∧ cs = text ++ rest ∧
      ∀ {minus ds}, exponent = some (minus, ds) → ds ≠ [] ∧ ∀ c ∈ ds, c.isDigit = true := by
  cases cs with
  | nil =>
    cases h
    exact ⟨[], .absent, rfl, fun h => by cases h⟩
  | cons e cs =>
    rw [exponentPart] at h
    split at h
    · next he =>
      obtain ⟨sign, hsign, hspelled⟩ := append_of_exponentSign he cs
      cases hrun : digitRun (exponentSign cs).2 with
      | none => simp [hrun] at h
      | some run =>
        obtain ⟨hmore, hne, hds⟩ := append_of_digitRun hrun
        simp only [hrun, Option.some.injEq, Prod.mk.injEq] at h
        obtain ⟨rfl, rfl⟩ := h
        refine ⟨e :: (sign ++ run.1), hspelled run.1, ?_, ?_⟩
        · rw [hsign, hmore]
          simp
        · rintro minus ds heq
          cases heq
          exact ⟨hne, hds⟩
    · cases h
      exact ⟨[], .absent, rfl, fun h => by cases h⟩

theorem append_of_numeralAfterSign {negative : Bool} {n : Numeral}
    (h : numeralAfterSign negative cs = some (n, rest)) :
    n.negative = negative ∧ n.WellFormed ∧ ∃ exponent, ExponentSpelled n.exponent exponent ∧
      cs = n.whole ++ (n.printFraction ++ exponent) ++ rest := by
  rw [numeralAfterSign] at h
  split at h
  · cases h
  next whole more₁ hwhole =>
  split at h
  · cases h
  next fraction more₂ hfraction =>
  split at h
  · cases h
  next exponent more₃ hexponent =>
  cases h
  obtain ⟨rfl, hne, hdigits, hhead⟩ := append_of_wholePart hwhole
  obtain ⟨rfl, hfigures⟩ := append_of_fractionPart hfraction
  obtain ⟨text, hspelled, rfl, hpower⟩ := append_of_exponentPart hexponent
  refine ⟨rfl, ⟨hne, hdigits _, hhead, hfigures _, hpower⟩, text, hspelled, ?_⟩
  simp [Numeral.printFraction]

theorem append_of_numeral {n : Numeral} (h : numeral cs = some (n, rest)) :
    ∃ text, n.Spelled text ∧ cs = text ++ rest := by
  unfold numeral at h
  split at h
  · obtain ⟨hsign, hn, exponent, hexponent, rfl⟩ := append_of_numeralAfterSign h
    refine ⟨'-' :: (n.whole ++ (n.printFraction ++ exponent)), ⟨hn, exponent, hexponent, ?_⟩, rfl⟩
    rw [hsign]
    rfl
  · obtain ⟨hsign, hn, exponent, hexponent, rfl⟩ := append_of_numeralAfterSign h
    refine ⟨n.whole ++ (n.printFraction ++ exponent), ⟨hn, exponent, hexponent, ?_⟩, rfl⟩
    rw [hsign]
    rfl

/-! ## Strings -/

theorem before_eq_some {p : Piece} {r? : Option (List Piece × List Char)} {ps : List Piece}
    (h : p.before r? = some (ps, rest)) : ∃ qs, r? = some (qs, rest) ∧ ps = p :: qs := by
  rcases r? with _ | ⟨qs, rest'⟩
  · cases h
  · cases h
    exact ⟨qs, rfl, rfl⟩

theorem append_of_pieces {ps : List Piece} (h : pieces cs = some (ps, rest)) :
    ∃ body, PiecesSpelled ps body ∧ cs = body ++ '"' :: rest := by
  induction cs using pieces.induct generalizing ps with
  | case2 more =>
    rw [pieces.eq_def] at h
    cases h
    exact ⟨[], .nil, rfl⟩
  | case4 p q r s more n hfigures _ ih =>
    rw [pieces.eq_def] at h
    obtain ⟨qs, hqs, rfl⟩ := before_eq_some (by simpa [hfigures] using h)
    obtain ⟨body, hbody, rfl⟩ := ih hqs
    exact ⟨_, .cons (.unit hfigures) hbody, rfl⟩
  | case7 e more hu d hnamed _ ih =>
    rw [pieces.eq_def] at h
    obtain ⟨qs, hqs, rfl⟩ := before_eq_some (by simpa [hu, hnamed] using h)
    obtain ⟨body, hbody, rfl⟩ := ih hqs
    exact ⟨_, .cons (.named hnamed) hbody, rfl⟩
  | case10 c more hquote hbackslash hprintable ih =>
    rw [pieces.eq_def] at h
    obtain ⟨qs, hqs, rfl⟩ := before_eq_some (by simpa [hquote, hbackslash, hprintable] using h)
    obtain ⟨body, hbody, rfl⟩ := ih hqs
    exact ⟨_, .cons (.plain hquote hbackslash hprintable) hbody, rfl⟩
  | case1 | case3 | case5 | case6 | case8 | case9 =>
    -- what ends too early, is no escape or would have to be escaped
    rw [pieces.eq_def] at h
    simp_all

theorem append_of_stringBody {s : Option String} (h : stringBody cs = some (s, rest)) :
    ∃ body, StringSpelled s ('"' :: body) ∧ cs = body ++ rest := by
  rw [stringBody] at h
  split at h
  · next ps rest' hread =>
    obtain ⟨body, hbody, rfl⟩ := append_of_pieces hread
    cases h
    refine ⟨body ++ ['"'], ?_, by simp⟩
    cases hps : assemble ps with
    | none =>
      refine .torn hbody fun cs hcs => ?_
      rw [assemble_of_denotes hcs] at hps
      cases hps
    | some cs =>
      refine .text hbody ?_
      rw [String.toList_ofList]
      exact denotes_of_assemble hbody.units_lt hps
  · cases h

/-! ## Values -/

theorem eq_append_of_skip {c : Char} (h : skip cs = c :: rest) :
    ∃ before, Spaces before ∧ cs = before ++ c :: rest :=
  h ▸ exists_spaces cs

theorem append_of_after? {word : List Char} (h : after? word cs = some rest) :
    cs = word ++ rest := by
  induction word generalizing cs with
  | nil =>
    cases h
    rfl
  | cons w ws ih =>
    cases cs with
    | nil => cases h
    | cons c cs =>
      rw [after?] at h
      split at h
      · next hc => rw [hc, ih h]; rfl
      · cases h

theorem append_of_literal {word : List Char} {t t' : Tree}
    (h : literal word t cs = some (t', rest)) : t' = t ∧ cs = word ++ rest := by
  obtain ⟨rest', hafter, heq⟩ := Option.map_eq_some_iff.1 h
  cases heq
  exact ⟨rfl, append_of_after? hafter⟩

theorem array_of_value {fuel : Nat} {t : Tree} (h : value (fuel + 1) ('[' :: cs) = some (t, rest)) :
    (t = .array [] ∧ ∃ inner, Spaces inner ∧ cs = inner ++ ']' :: rest) ∨
      ∃ ts, t = .array ts ∧ items fuel cs = some (ts, rest) := by
  rw [value, skip_cons (by decide)] at h
  cases hskip : skip cs with
  | nil => simp [hskip] at h
  | cons c more =>
    by_cases hc : c = ']'
    · simp only [hskip, hc] at h
      cases h
      exact .inl ⟨rfl, eq_append_of_skip (hc ▸ hskip)⟩
    · obtain ⟨ts, hitems, rfl⟩ : ∃ ts, items fuel (c :: more) = some (ts, rest) ∧
          Tree.array ts = t := by
        simpa [hskip, hc] using h
      rw [← hskip, items_skip] at hitems
      exact .inr ⟨ts, rfl, hitems⟩

theorem object_of_value {fuel : Nat} {t : Tree}
    (h : value (fuel + 1) ('\x7b' :: cs) = some (t, rest)) :
    (t = .object [] ∧ ∃ inner, Spaces inner ∧ cs = inner ++ '\x7d' :: rest) ∨
      ∃ ms, t = .object ms ∧ members fuel cs = some (ms, rest) := by
  rw [value, skip_cons (by decide)] at h
  cases hskip : skip cs with
  | nil => simp [hskip] at h
  | cons c more =>
    by_cases hc : c = '\x7d'
    · simp only [hskip, hc] at h
      cases h
      exact .inl ⟨rfl, eq_append_of_skip (hc ▸ hskip)⟩
    · obtain ⟨ms, hmembers, rfl⟩ : ∃ ms, members fuel (c :: more) = some (ms, rest) ∧
          Tree.object ms = t := by
        simpa [hskip, hc] using h
      rw [← hskip, members_skip] at hmembers
      exact .inr ⟨ms, rfl, hmembers⟩

/-- A value that is no array and no object. -/
theorem append_of_scalar {fuel : Nat} {t : Tree} {c : Char} (hspace : isSpace c = false)
    (harray : c ≠ '[') (hobject : c ≠ '\x7b')
    (h : value (fuel + 1) (c :: cs) = some (t, rest)) :
    ∃ text, t.Spelled text ∧ c :: cs = text ++ rest := by
  simp only [value, skip_cons hspace, if_neg harray, if_neg hobject] at h
  split at h
  · next hc =>
    obtain ⟨⟨s, rest'⟩, hbody, heq⟩ := Option.map_eq_some_iff.1 h
    obtain ⟨body, hspelled, rfl⟩ := append_of_stringBody hbody
    cases heq
    exact ⟨'"' :: body, hspelled, by rw [hc]; rfl⟩
  split at h
  · next hc =>
    obtain ⟨rfl, rfl⟩ := append_of_literal h
    exact ⟨_, rfl, by rw [hc]; rfl⟩
  split at h
  · next hc =>
    obtain ⟨rfl, rfl⟩ := append_of_literal h
    exact ⟨_, rfl, by rw [hc]; rfl⟩
  split at h
  · next hc =>
    obtain ⟨rfl, rfl⟩ := append_of_literal h
    exact ⟨_, rfl, by rw [hc]; rfl⟩
  · obtain ⟨⟨n, rest'⟩, hnumeral, heq⟩ := Option.map_eq_some_iff.1 h
    obtain ⟨text, hspelled, htext⟩ := append_of_numeral hnumeral
    cases heq
    exact ⟨text, hspelled, htext⟩

theorem isSpace_of_skip {c : Char} (h : skip cs = c :: rest) : isSpace c = false := by
  have hhead := List.head?_dropWhile_not isSpace cs
  rwa [← skip, h] at hhead

theorem moreItems_of_items {ts : List Tree} {inner : List Char} (hne : ts ≠ [])
    (h : itemsSpelled ts inner) : moreItemsSpelled ts (',' :: inner) := by
  obtain ⟨t, ts, rfl⟩ := List.exists_cons_of_ne_nil hne
  obtain ⟨item, more, hitem, hmore, rfl⟩ := h
  exact ⟨item, more, hitem, hmore, rfl⟩

theorem moreMembers_of_members {ms : List (Option String × Tree)} {inner : List Char}
    (hne : ms ≠ []) (h : membersSpelled ms inner) : moreMembersSpelled ms (',' :: inner) := by
  obtain ⟨⟨k, t⟩, ms, rfl⟩ := List.exists_cons_of_ne_nil hne
  obtain ⟨key, item, more, hkey, hitem, hmore, rfl⟩ := h
  exact ⟨key, item, more, hkey, hitem, hmore, rfl⟩

theorem spelled_array {ts : List Tree} {inner : List Char} (h : itemsSpelled ts inner) :
    (Tree.array ts).Spelled ('[' :: (inner ++ [']'])) :=
  ⟨inner, h, rfl⟩

theorem spelled_object {ms : List (Option String × Tree)} {inner : List Char}
    (h : membersSpelled ms inner) : (Tree.object ms).Spelled ('\x7b' :: (inner ++ ['\x7d'])) :=
  ⟨inner, h, rfl⟩

/-- What is read for a value, for items and for members stands in front of what is left. -/
structure ReadsSpelled (fuel : Nat) : Prop where
  value {cs rest : List Char} {t : Tree} : value fuel cs = some (t, rest) →
    ∃ before text, Spaces before ∧ t.Spelled text ∧ cs = before ++ (text ++ rest)
  items {cs rest : List Char} {ts : List Tree} : items fuel cs = some (ts, rest) →
    ∃ inner, ts ≠ [] ∧ itemsSpelled ts inner ∧ cs = inner ++ ']' :: rest
  members {cs rest : List Char} {ms : List (Option String × Tree)} :
    members fuel cs = some (ms, rest) →
      ∃ inner, ms ≠ [] ∧ membersSpelled ms inner ∧ cs = inner ++ '\x7d' :: rest
  member {cs rest : List Char} {k : Option String} {t : Tree} :
    member fuel cs = some ((k, t), rest) →
      ∃ key after before text, StringSpelled k key ∧ Spaces after ∧ Spaces before ∧
        t.Spelled text ∧ cs = key ++ (after ++ ':' :: (before ++ (text ++ rest)))

namespace ReadsSpelled

variable {fuel : Nat}

theorem value_succ (h : ReadsSpelled fuel) {t : Tree}
    (hread : Json.value (fuel + 1) cs = some (t, rest)) :
    ∃ before text, Spaces before ∧ t.Spelled text ∧ cs = before ++ (text ++ rest) := by
  obtain ⟨before, hbefore, hcs⟩ := exists_spaces cs
  rw [hcs, value_spaces hbefore] at hread
  suffices ∃ text, t.Spelled text ∧ skip cs = text ++ rest by
    obtain ⟨text, htext, heq⟩ := this
    exact ⟨before, text, hbefore, htext, by rw [← heq, ← hcs]⟩
  cases hskip : skip cs with
  | nil =>
    rw [hskip] at hread
    cases hread
  | cons c more =>
    rw [hskip] at hread
    by_cases harray : c = '['
    · subst harray
      obtain ⟨rfl, inner, hinner, rfl⟩ | ⟨ts, rfl, hitems⟩ := array_of_value hread
      · exact ⟨_, ⟨inner, hinner, rfl⟩, by simp⟩
      · obtain ⟨inner, -, hinner, rfl⟩ := h.items hitems
        exact ⟨_, spelled_array hinner, by simp⟩
    by_cases hobject : c = '\x7b'
    · subst hobject
      obtain ⟨rfl, inner, hinner, rfl⟩ | ⟨ms, rfl, hmembers⟩ := object_of_value hread
      · exact ⟨_, ⟨inner, hinner, rfl⟩, by simp⟩
      · obtain ⟨inner, -, hinner, rfl⟩ := h.members hmembers
        exact ⟨_, spelled_object hinner, by simp⟩
    exact append_of_scalar (isSpace_of_skip hskip) harray hobject hread

theorem items_succ (h : ReadsSpelled fuel) {ts : List Tree}
    (hread : Json.items (fuel + 1) cs = some (ts, rest)) :
    ∃ inner, ts ≠ [] ∧ itemsSpelled ts inner ∧ cs = inner ++ ']' :: rest := by
  rw [Json.items] at hread
  cases hvalue : Json.value fuel cs with
  | none => simp [hvalue] at hread
  | some r =>
    obtain ⟨t, more⟩ := r
    obtain ⟨before, text, hbefore, htext, rfl⟩ := h.value hvalue
    cases hskip : skip more with
    | nil => simp [hvalue, hskip] at hread
    | cons c more =>
      obtain ⟨after, hafter, rfl⟩ := eq_append_of_skip hskip
      have hitem : Padded t.Spelled (before ++ (text ++ after)) :=
        ⟨before, text, after, hbefore, htext, hafter, rfl⟩
      by_cases hclose : c = ']'
      · subst hclose
        simp only [hvalue, hskip, if_true, Option.some.injEq, Prod.mk.injEq] at hread
        obtain ⟨rfl, rfl⟩ := hread
        exact ⟨_, List.cons_ne_nil _ _, ⟨_, [], hitem, rfl, rfl⟩, by simp⟩
      · obtain ⟨rfl, ts, hitems, rfl⟩ : c = ',' ∧ ∃ ts', Json.items fuel more = some (ts', rest) ∧
            t :: ts' = ts := by
          simpa [hvalue, hskip, hclose] using hread
        obtain ⟨inner, hne, hinner, rfl⟩ := h.items hitems
        exact ⟨_, List.cons_ne_nil _ _, ⟨_, _, hitem, moreItems_of_items hne hinner, rfl⟩, by simp⟩

theorem member_succ (h : ReadsSpelled fuel) {k : Option String} {t : Tree}
    (hread : Json.member (fuel + 1) cs = some ((k, t), rest)) :
    ∃ key after before text, StringSpelled k key ∧ Spaces after ∧ Spaces before ∧
      t.Spelled text ∧ cs = key ++ (after ++ ':' :: (before ++ (text ++ rest))) := by
  obtain ⟨more, rfl⟩ := member_opens hread
  rw [Json.member] at hread
  cases hbody : stringBody more with
  | none => simp [hbody] at hread
  | some r =>
    obtain ⟨k', more⟩ := r
    obtain ⟨body, hkey, rfl⟩ := append_of_stringBody hbody
    cases hskip : skip more with
    | nil => simp [hbody, hskip] at hread
    | cons c more =>
      obtain ⟨after, hafter, rfl⟩ := eq_append_of_skip hskip
      obtain ⟨rfl, hvalue, rfl⟩ : c = ':' ∧ Json.value fuel more = some (t, rest) ∧ k' = k := by
        simpa [hbody, hskip] using hread
      obtain ⟨before, text, hbefore, htext, rfl⟩ := h.value hvalue
      exact ⟨'"' :: body, after, before, text, hkey, hafter, hbefore, htext, by simp⟩

theorem members_succ (h : ReadsSpelled fuel) {ms : List (Option String × Tree)}
    (hread : Json.members (fuel + 1) cs = some (ms, rest)) :
    ∃ inner, ms ≠ [] ∧ membersSpelled ms inner ∧ cs = inner ++ '\x7d' :: rest := by
  rw [Json.members] at hread
  cases hmember : Json.member fuel (skip cs) with
  | none => simp [hmember] at hread
  | some r =>
    obtain ⟨⟨k, t⟩, more⟩ := r
    obtain ⟨b, hb, hcs⟩ := exists_spaces cs
    obtain ⟨key, a, before, text, hkey, ha, hbefore, htext, heq⟩ := h.member hmember
    cases hskip : skip more with
    | nil => simp [hmember, hskip] at hread
    | cons c more =>
      obtain ⟨after, hafter, rfl⟩ := eq_append_of_skip hskip
      have hkey : Padded (StringSpelled k) (b ++ (key ++ a)) := ⟨b, key, a, hb, hkey, ha, rfl⟩
      have hitem : Padded t.Spelled (before ++ (text ++ after)) :=
        ⟨before, text, after, hbefore, htext, hafter, rfl⟩
      by_cases hclose : c = '\x7d'
      · subst hclose
        simp only [hmember, hskip, if_true, Option.some.injEq, Prod.mk.injEq] at hread
        obtain ⟨rfl, rfl⟩ := hread
        refine ⟨_, List.cons_ne_nil _ _, ⟨_, _, [], hkey, hitem, rfl, rfl⟩, ?_⟩
        rw [hcs, heq]
        simp
      · obtain ⟨rfl, ms, hmembers, rfl⟩ : c = ',' ∧
            ∃ ms', Json.members fuel more = some (ms', rest) ∧ (k, t) :: ms' = ms := by
          simpa [hmember, hskip, hclose] using hread
        obtain ⟨inner, hne, hinner, rfl⟩ := h.members hmembers
        refine ⟨_, List.cons_ne_nil _ _,
          ⟨_, _, _, hkey, hitem, moreMembers_of_members hne hinner, rfl⟩, ?_⟩
        rw [hcs, heq]
        simp

end ReadsSpelled

theorem readsSpelled (fuel : Nat) : ReadsSpelled fuel := by
  induction fuel with
  | zero =>
    refine ⟨fun h => ?_, fun h => ?_, fun h => ?_, fun h => ?_⟩
    · rw [value] at h; cases h
    · rw [items] at h; cases h
    · rw [members] at h; cases h
    · rw [member] at h; cases h
  | succ fuel ih => exact ⟨ih.value_succ, ih.items_succ, ih.members_succ, ih.member_succ⟩

/-- Texts are read as what the grammar says that they spell, and no others are read. -/
theorem Tree.ofText?_eq_some_iff {s : String} {t : Tree} :
    Tree.ofText? s = some t ↔ t.SpelledBy s := by
  refine ⟨fun h => ?_, SpelledBy.ofText?⟩
  rw [Tree.ofText?, ofChars?] at h
  split at h
  · next t' rest hread =>
    obtain ⟨before, text, hbefore, htext, hs⟩ := (readsSpelled _).value hread
    split at h
    · next hend =>
      cases h
      exact ⟨before, text, rest, hbefore, htext, skip_eq_nil_iff.1 (List.isEmpty_iff.1 hend), hs⟩
    · cases h
  · cases h

end ProjectRegistry.Json
