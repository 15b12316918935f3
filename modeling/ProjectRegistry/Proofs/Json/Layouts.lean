import ProjectRegistry.Proofs.Json.Grammar
import ProjectRegistry.Proofs.Json.Records

/-!
# Layouts of records

A tree presents the fields of a record under their names. An object does so in any order and may
have other members, but has each field at most once; an array has the fields in their own order and
may end early. What a field says of a value is a relation between the value and its tree, kind by
kind; which fields have to be there is said by the layout of the record.

A reader that accepts what a relation says does so in every presentation and every spelling, and one
that follows a layout refuses what is against it.
-/

namespace ProjectRegistry.Json

/-! ## Presentations -/

/-- What the members of an object hold under a name. -/
def valuesUnder (name : String) (ms : List (Option String × Tree)) : List Tree :=
  (ms.filter fun m => m.1 = some name).map (·.2)

theorem valuesUnder_cons (name : String) (k : Option String) (t : Tree)
    (ms : List (Option String × Tree)) :
    valuesUnder name ((k, t) :: ms) =
      if k = some name then t :: valuesUnder name ms else valuesUnder name ms := by
  rw [valuesUnder, List.filter_cons]
  by_cases h : k = some name
  · rw [if_pos (decide_eq_true h), if_pos h]
    rfl
  · rw [if_neg (by simpa using h), if_neg h]
    rfl

theorem mem_of_valuesUnder {name : String} {t : Tree} {ms : List (Option String × Tree)}
    (h : t ∈ valuesUnder name ms) : ∃ m ∈ ms, m.2 = t := by
  obtain ⟨m, hm, ht⟩ := List.mem_map.1 h
  exact ⟨m, List.mem_of_mem_filter hm, ht⟩

/-- Whether a tree presents what is found under names. Keys that are no names are passed over, but
they have to be texts. -/
inductive Presents (names : List String) (found : String → Option Tree) : Tree → Prop
  | object {ms : List (Option String × Tree)} (keys : ∀ m ∈ ms, m.1 ≠ none)
    (fields : ∀ name ∈ names, valuesUnder name ms = (found name).toList) :
    Presents names found (.object ms)
  | array {ts : List Tree}
    (fields : ∀ (i : Nat) (name : String), names[i]? = some name → found name = ts[i]?)
    (length : ts.length ≤ names.length) : Presents names found (.array ts)

/-- What becomes of the first member when fields are found: it is a new one of them, or its key is
no name. -/
theorem cons_of_fieldsOfMembers? {names : List String} {k : Option String} {t : Tree}
    {rest : List (Option String × Tree)} {fs : Fields}
    (h : fieldsOfMembers? names ((k, t) :: rest) = some fs) :
    ∃ key fs', k = some key ∧ fieldsOfMembers? names rest = some fs' ∧
      ((fs'.get? key = none ∧ fs = (key, t) :: fs') ∨ (key ∉ names ∧ fs = fs')) := by
  cases k with
  | none => cases h
  | some key =>
    rw [fieldsOfMembers?] at h
    split at h
    · cases h
    next fs' hrest =>
    refine ⟨key, fs', rfl, hrest, ?_⟩
    split at h
    · split at h
      · cases h
      · next hnew => exact .inl ⟨Option.not_isSome_iff_eq_none.1 hnew, (Option.some.inj h).symm⟩
    · next hunknown => exact .inr ⟨hunknown, (Option.some.inj h).symm⟩

theorem valuesUnder_of_fieldsOfMembers? {names : List String} {ms : List (Option String × Tree)}
    {fs : Fields} (h : fieldsOfMembers? names ms = some fs) {name : String}
    (hname : name ∈ names) : valuesUnder name ms = (fs.get? name).toList := by
  induction ms generalizing fs with
  | nil =>
    cases h
    rfl
  | cons m rest ih =>
    obtain ⟨key, fs', hkey, hrest, ⟨hnew, rfl⟩ | ⟨hunknown, rfl⟩⟩ := cons_of_fieldsOfMembers? h
    · rw [valuesUnder_cons, hkey, ih hrest, Fields.get?_cons]
      by_cases heq : name = key
      · subst heq
        rw [if_pos rfl, if_pos rfl, hnew]
        rfl
      · rw [if_neg (by simpa using Ne.symm heq), if_neg heq]
    · have hne : some key ≠ some name := by
        rintro heq
        cases heq
        exact hunknown hname
      rw [valuesUnder_cons, hkey, if_neg hne, ih hrest]

theorem keys_of_fieldsOfMembers? {names : List String} {ms : List (Option String × Tree)}
    {fs : Fields} (h : fieldsOfMembers? names ms = some fs) : ∀ m ∈ ms, m.1 ≠ none := by
  induction ms generalizing fs with
  | nil => exact List.forall_mem_nil _
  | cons m rest ih =>
    obtain ⟨key, fs', hkey, hrest, -⟩ := cons_of_fieldsOfMembers? h
    exact List.forall_mem_cons.2 ⟨hkey ▸ Option.some_ne_none key, ih hrest⟩

/-- The fields of an object are found if its keys are texts and none of them comes twice. -/
theorem exists_fieldsOfMembers? {names : List String} {ms : List (Option String × Tree)}
    (keys : ∀ m ∈ ms, m.1 ≠ none) (once : ∀ name ∈ names, (valuesUnder name ms).length ≤ 1) :
    ∃ fs, fieldsOfMembers? names ms = some fs := by
  induction ms with
  | nil => exact ⟨[], rfl⟩
  | cons m rest ih =>
    obtain ⟨_ | k, t⟩ := m
    · exact absurd rfl (keys _ List.mem_cons_self)
    obtain ⟨fs, hfs⟩ := ih (fun m hm => keys m (List.mem_cons_of_mem _ hm)) fun name hname => by
      have hlength := once name hname
      rw [valuesUnder_cons] at hlength
      split at hlength
      · exact Nat.le_of_succ_le hlength
      · exact hlength
    rw [fieldsOfMembers?, hfs]
    by_cases hk : k ∈ names
    · have hlength := once k hk
      rw [valuesUnder_cons, if_pos rfl, valuesUnder_of_fieldsOfMembers? hfs hk] at hlength
      cases hget : fs.get? k with
      | none => exact ⟨(k, t) :: fs, by simp [hk, hget]⟩
      | some t' => simp [hget] at hlength
    · exact ⟨fs, by simp [hk]⟩

theorem get?_zip {names : List String} (hdistinct : names.Nodup) (ts : List Tree) {i : Nat}
    {name : String} (hname : names[i]? = some name) :
    Fields.get? (names.zip ts) name = ts[i]? := by
  induction names generalizing ts i with
  | nil => cases hname
  | cons n names ih =>
    obtain ⟨hnew, hdistinct⟩ := List.nodup_cons.1 hdistinct
    cases ts with
    | nil => rfl
    | cons t ts =>
      rw [List.zip_cons_cons, Fields.get?_cons]
      cases i with
      | zero =>
        cases hname
        rw [if_pos rfl]
        rfl
      | succ i =>
        have hne : name ≠ n := by
          rintro rfl
          exact hnew (List.mem_of_getElem? hname)
        rw [if_neg hne]
        exact ih hdistinct ts hname

/-- What was found was presented. -/
theorem presents_of_fields? {names : List String} {t : Tree} {fs : Fields} {room inside : Nat}
    (hdistinct : names.Nodup) (h : fields? names room t = some (fs, inside)) :
    Presents names fs.get? t := by
  cases t with
  | object ms =>
    rw [fields?] at h
    split at h
    · cases h
    · obtain ⟨fs', hfs, heq⟩ := Option.map_eq_some_iff.1 h
      cases heq
      exact .object (keys_of_fieldsOfMembers? hfs) fun name hname =>
        valuesUnder_of_fieldsOfMembers? hfs hname
  | array ts =>
    rw [fields?] at h
    split at h
    · cases h
    · next hlength =>
      cases h
      exact .array (fun i name hname => get?_zip hdistinct ts hname) (by omega)
  | _ => cases h

/-- A record that is written presents its fields. -/
theorem presents_record (names : List String) (hdistinct : names.Nodup) {fs : Fields}
    (h : (fs.map (·.1)).Sublist names) : Presents names fs.get? (Tree.record fs) :=
  presents_of_fields? hdistinct (fields?_record names Nat.one_pos h hdistinct)

/-- Whether fields are those that are presented, with room for what is in them. -/
def Fields.Agree (fs : Fields) (names : List String) (found : String → Option Tree) (room : Nat) :
    Prop :=
  ∀ name ∈ names, fs.get? name = found name ∧ ∀ t ∈ found name, t.nesting ≤ room

/-- What is presented is found. -/
theorem fields?_of_presents {names : List String} {found : String → Option Tree} {t : Tree}
    {room : Nat} (hdistinct : names.Nodup) (h : Presents names found t) (hroom : t.nesting ≤ room) :
    ∃ fs, fields? names room t = some (fs, room - 1) ∧ fs.Agree names found (room - 1) := by
  cases h with
  | @object ms keys fields =>
    have hnesting : 0 < room ∧ ∀ m ∈ ms, m.2.nesting ≤ room - 1 := by
      rw [Tree.nesting] at hroom
      exact ⟨by omega, nestingOfTreeMembers_le.1 (by omega)⟩
    obtain ⟨fs, hfs⟩ := exists_fieldsOfMembers? keys fun name hname => by
      rw [fields name hname]
      exact Option.length_toList_le
    refine ⟨fs, by rw [fields?, if_neg (by omega), hfs, Option.map_some], fun name hname => ?_⟩
    have hfound := fields name hname
    have hget := (valuesUnder_of_fieldsOfMembers? hfs hname).symm.trans hfound
    refine ⟨by simpa using congrArg List.head? hget, fun t ht => ?_⟩
    obtain ⟨m, hm, rfl⟩ := mem_of_valuesUnder (hfound ▸ Option.mem_toList.2 ht)
    exact hnesting.2 m hm
  | @array ts fields length =>
    obtain ⟨hpos, hnesting⟩ := Tree.nesting_array_le.1 hroom
    refine ⟨names.zip ts, by rw [fields?, if_neg (by omega)], fun name hname => ?_⟩
    obtain ⟨i, hi⟩ := List.mem_iff_getElem?.1 hname
    have hfound := fields i name hi
    refine ⟨by rw [get?_zip hdistinct ts hi, hfound], fun t ht => ?_⟩
    rw [hfound] at ht
    exact hnesting t (List.mem_of_getElem? ht)

/-! ## What fields say -/

section Kinds

variable {α : Type} {gives : α → Tree → Prop} {read : Nat → Tree → Option α}

/-- Whether a reader reads what trees give, wherever there is room for them. -/
def Accepts (gives : α → Tree → Prop) (read : Nat → Tree → Option α) : Prop :=
  ∀ {a : α} {t : Tree} {room : Nat}, gives a t → t.nesting ≤ room → read room t = some a

/-- The one tree that is written for a value. -/
def GivesAs (write : α → Tree) (a : α) (t : Tree) : Prop := t = write a

/-- A text whose content stands for a value. -/
def GivesParsed (parse : String → Option α) (a : α) (t : Tree) : Prop :=
  ∃ s, t = .text s ∧ parse s = some a

def GivesNullable (gives : α → Tree → Prop) (a? : Option α) (t : Tree) : Prop :=
  (a? = none ∧ t = .null) ∨ ∃ a, a? = some a ∧ gives a t

def GivesItems (gives : α → Tree → Prop) (as : List α) (t : Tree) : Prop :=
  ∃ ts, t = .array ts ∧ List.Forall₂ gives as ts

def GivesMembers (gives : α → Tree → Prop) (es : List (String × α)) (t : Tree) : Prop :=
  ∃ ms, t = .object ms ∧
    List.Forall₂ (fun e m => m.1 = some e.1 ∧ gives e.2 m.2) es ms

theorem givesItems_map {write : α → Tree} {as : List α} (h : ∀ a ∈ as, gives a (write a)) :
    GivesItems gives as (.array (as.map write)) :=
  ⟨_, rfl, List.forall₂_map_right_iff.2 (List.forall₂_same.2 h)⟩

theorem givesMembers_record {write : α → Tree} {es : List (String × α)}
    (h : ∀ e ∈ es, gives e.2 (write e.2)) :
    GivesMembers gives es (.record (es.map fun e => (e.1, write e.2))) := by
  refine ⟨_, rfl, List.forall₂_map_right_iff.2 (List.forall₂_map_right_iff.2 ?_)⟩
  exact List.forall₂_same.2 fun e he => ⟨rfl, h e he⟩

theorem accepts_text : Accepts (GivesAs .text) fun _ => Tree.text? := by
  rintro s t room rfl -
  rfl

theorem accepts_bool : Accepts (GivesAs .bool) fun _ => Tree.bool? := by
  rintro b t room rfl -
  rfl

theorem accepts_int32 : Accepts (GivesAs .ofInt32) fun _ => Tree.int32? := by
  rintro n t room rfl -
  exact Tree.int32?_ofInt32 n

theorem accepts_byte : Accepts (GivesAs .ofByte) fun _ => Tree.byte? := by
  rintro b t room rfl hroom
  exact (returns_byte b).read_eq hroom

theorem accepts_parsed (parse : String → Option α) :
    Accepts (GivesParsed parse) fun _ t => t.text?.bind parse := by
  rintro a t room ⟨s, rfl, hs⟩ -
  exact hs

theorem Accepts.nullable (h : Accepts gives read) (hnull : ∀ room, read room .null = none) :
    Accepts (GivesNullable gives) fun room => Tree.nullable? (read room) := by
  rintro a? t room (⟨rfl, rfl⟩ | ⟨a, rfl, ha⟩) hroom
  · rfl
  · exact Tree.nullable?_eq (hnull room) (h ha hroom)

theorem mapM_of_forall₂ {β : Type} {gives : α → β → Prop} {as : List α} {bs : List β}
    {read : β → Option α} (h : List.Forall₂ gives as bs)
    (hread : ∀ a, ∀ b ∈ bs, gives a b → read b = some a) : bs.mapM read = some as := by
  induction h with
  | nil => rfl
  | @cons a b as bs ha _ ih =>
    have hhead := hread a b List.mem_cons_self ha
    have hrest := ih fun a b hb => hread a b (List.mem_cons_of_mem _ hb)
    rw [List.mapM_cons, hhead, hrest]
    rfl

theorem Accepts.items (h : Accepts gives read) :
    Accepts (GivesItems gives) fun room => Tree.array? room read := by
  rintro as t room ⟨ts, rfl, hts⟩ hroom
  obtain ⟨hpos, hnesting⟩ := Tree.nesting_array_le.1 hroom
  simp only [Tree.array?]
  rw [if_neg (by omega)]
  exact mapM_of_forall₂ hts fun a t ht ha => h ha (hnesting t ht)

theorem Accepts.members (h : Accepts gives read) :
    Accepts (GivesMembers gives) fun room => Tree.members? room read := by
  rintro es t room ⟨ms, rfl, hms⟩ hroom
  rw [Tree.nesting] at hroom
  have hnesting : ∀ m ∈ ms, m.2.nesting ≤ room - 1 := nestingOfTreeMembers_le.1 (by omega)
  simp only [Tree.members?]
  rw [if_neg (by omega)]
  refine mapM_of_forall₂ hms fun e m hm he => ?_
  rw [he.1, Option.bind_some, h he.2 (hnesting m hm)]
  rfl

end Kinds

mutual

/-- Whether free JSON is given by a tree: whole numbers as they are, and objects as their members
put one after the other, if they do not stand for a text. -/
def Value.GivenBy : Value → Tree → Prop
  | v, .null => v = .null
  | v, .bool b => v = .bool b
  | v, .number n => ∃ m : Number, m.IsWhole ∧ n = m.toNumeral ∧ v = .number m
  | v, .string s => ∃ content, s = some content ∧ v = .string content
  | v, .array ts => ∃ vs, valuesGivenBy vs ts ∧ v = .array vs
  | v, .object ms => embedded? ms = none ∧ ∃ es, entriesGivenBy es ms ∧ v = .ofMembers es

def valuesGivenBy : List Value → List Tree → Prop
  | vs, [] => vs = []
  | vs, t :: ts => ∃ v rest, Value.GivenBy v t ∧ valuesGivenBy rest ts ∧ vs = v :: rest

def entriesGivenBy : List (String × Value) → List (Option String × Tree) → Prop
  | es, [] => es = []
  | es, (k, t) :: ms => ∃ key v rest, k = some key ∧ Value.GivenBy v t ∧ entriesGivenBy rest ms ∧
      es = (key, v) :: rest

end

mutual

theorem Value.ofTreeBy_of_given : ∀ {v : Value} {t : Tree} {room : Nat}, v.GivenBy t →
    t.nesting ≤ room → Value.ofTreeBy Value.ofText? room t = some v
  | _, .null, _, rfl, _ => rfl
  | _, .bool _, _, rfl, _ => rfl
  | _, .number _, _, h, _ => by
    obtain ⟨m, hm, rfl, rfl⟩ := h
    rw [Value.ofTreeBy, Number.ofNumeral?_toNumeral hm, Option.map_some]
  | _, .string _, _, h, _ => by
    obtain ⟨content, rfl, rfl⟩ := h
    rfl
  | _, .array ts, room, h, hroom => by
    obtain ⟨vs, hvs, rfl⟩ := h
    rw [Tree.nesting] at hroom
    rw [Value.ofTreeBy, if_neg (by omega), valuesOfTreesBy_of_given hvs (by omega),
      Option.map_some]
  | _, .object ms, room, h, hroom => by
    obtain ⟨hobject, es, hes, rfl⟩ := h
    rw [Tree.nesting] at hroom
    rw [Value.ofTreeBy, if_neg (by omega), hobject]
    exact congrArg (Option.map Value.ofMembers) (membersOfTreesBy_of_given hes (by omega))

theorem valuesOfTreesBy_of_given : ∀ {vs : List Value} {ts : List Tree} {room : Nat},
    valuesGivenBy vs ts → nestingOfTrees ts ≤ room →
      valuesOfTreesBy Value.ofText? room ts = some vs
  | _, [], _, rfl, _ => rfl
  | _, t :: ts, room, h, hroom => by
    obtain ⟨v, vs, hv, hvs, rfl⟩ := h
    obtain ⟨ht, hts⟩ := Nat.max_le.1 hroom
    rw [valuesOfTreesBy, Value.ofTreeBy_of_given hv ht, valuesOfTreesBy_of_given hvs hts]

theorem membersOfTreesBy_of_given : ∀ {es : List (String × Value)}
    {ms : List (Option String × Tree)} {room : Nat}, entriesGivenBy es ms →
      nestingOfTreeMembers ms ≤ room → membersOfTreesBy Value.ofText? room ms = some es
  | _, [], _, rfl, _ => rfl
  | _, (k, t) :: ms, room, h, hroom => by
    obtain ⟨key, v, es, rfl, hv, hes, rfl⟩ := h
    obtain ⟨ht, hms⟩ := Nat.max_le.1 hroom
    simp [membersOfTreesBy, Value.ofTreeBy_of_given hv ht, membersOfTreesBy_of_given hes hms]

end

theorem accepts_value : Accepts Value.GivenBy Value.ofTree? := Value.ofTreeBy_of_given

mutual

/-- What is written for free JSON gives it. -/
theorem Value.Unreserved.givenBy_toTree : ∀ {v : Value}, v.Unreserved → v.Regular →
    v.GivenBy v.toTree
  | .null, _, _ => rfl
  | .bool _, _, _ => rfl
  | .number n, _, h => ⟨n, h, rfl, rfl⟩
  | .string s, _, _ => ⟨s, rfl, rfl⟩
  | .array vs, h, hregular => ⟨vs, givenBy_treesOfValues h hregular, rfl⟩
  | .object ms, h, hregular =>
    ⟨embedded?_treesOfMembers.2 h.1, ms, givenBy_treesOfMembers h.2 hregular.2,
      (ofMembers_eq hregular.1).symm⟩

theorem givenBy_treesOfValues : ∀ {vs : List Value}, valuesUnreserved vs → valuesRegular vs →
    valuesGivenBy vs (treesOfValues vs)
  | [], _, _ => rfl
  | v :: vs, h, hregular =>
    ⟨v, vs, h.1.givenBy_toTree hregular.1, givenBy_treesOfValues h.2 hregular.2, rfl⟩

theorem givenBy_treesOfMembers : ∀ {ms : List (String × Value)}, membersUnreserved ms →
    membersRegular ms → entriesGivenBy ms (treesOfMembers ms)
  | [], _, _ => rfl
  | (k, v) :: ms, h, hregular =>
    ⟨k, v, ms, rfl, h.1.givenBy_toTree hregular.1, givenBy_treesOfMembers h.2 hregular.2, rfl⟩

end

theorem Value.Exact.givenBy_toTree {v : Value} (h : v.Exact) : v.GivenBy v.toTree :=
  h.2.givenBy_toTree h.1

/-! ## Fields -/

section Fields

variable {α : Type} {gives : α → Tree → Prop} {read : Nat → Tree → Option α}
  {found : String → Option Tree} {name : String}

/-- A field that has to be there. -/
def Required (found : String → Option Tree) (name : String) (gives : α → Tree → Prop) (a : α) :
    Prop :=
  ∃ t, found name = some t ∧ gives a t

/-- A field that may be left out for a default. -/
def Optional (found : String → Option Tree) (name : String) (default : α)
    (gives : α → Tree → Prop) (a : α) : Prop :=
  (found name = none ∧ a = default) ∨ Required found name gives a

variable {names : List String} {fs : Fields} {room : Nat}

theorem Fields.Agree.required (h : fs.Agree names found room) (hread : Accepts gives read)
    (hname : name ∈ names) {a : α} (ha : Required found name gives a) :
    fs.required name (read room) = some a := by
  obtain ⟨t, ht, hgives⟩ := ha
  obtain ⟨hget, hnesting⟩ := h name hname
  rw [Fields.required, hget, ht, Option.bind_some]
  exact hread hgives (hnesting t ht)

theorem Fields.Agree.withDefault (h : fs.Agree names found room) (hread : Accepts gives read)
    (hname : name ∈ names) {default a : α} (ha : Optional found name default gives a) :
    fs.withDefault name default (read room) = some a := by
  obtain ⟨hget, hnesting⟩ := h name hname
  rcases ha with ⟨hnone, rfl⟩ | ⟨t, ht, hgives⟩
  · simp [Fields.withDefault, hget, hnone]
  · simp [Fields.withDefault, hget, ht, hread hgives (hnesting t ht)]

theorem Fields.ne_none_of_required {read : Tree → Option α} {a : α}
    (h : fs.required name read = some a) : fs.get? name ≠ none := by
  intro hnone
  rw [Fields.required, hnone] at h
  cases h

end Fields

/-! ## Layouts -/

/-- The fields of a record in their order, and which of them have to be there. An array has at least
the fields up to the last of these. -/
structure Layout where
  names : List String
  required : List String
  least : Nat
  distinct : names.Nodup
  known : ∀ name ∈ required, name ∈ names
  last : least = 0 ∨ ∃ name ∈ required, names[least - 1]? = some name

namespace Layout

variable {α : Type} {l : Layout} {given : α → (String → Option Tree) → Prop}
  {read : Nat → Tree → Option α}

/-- Whether a tree gives a value through its fields. -/
def Gives (l : Layout) (given : α → (String → Option Tree) → Prop) (a : α) (t : Tree) : Prop :=
  ∃ found, Presents l.names found t ∧ given a found

/-- Whether a reader of records follows a layout: it reads what fields give, and nothing without the
fields that have to be there. -/
structure Governs (l : Layout) (given : α → (String → Option Tree) → Prop)
    (read : Nat → Tree → Option α) : Prop where
  reads {a : α} {found : String → Option Tree} {fs : Fields} {room : Nat} {t : Tree} :
    fields? l.names room t = some (fs, room - 1) → fs.Agree l.names found (room - 1) →
      given a found → read room t = some a
  finds {a : α} {room : Nat} {t : Tree} : read room t = some a →
    ∃ fs inside, fields? l.names room t = some (fs, inside) ∧
      ∀ name ∈ l.required, fs.get? name ≠ none

namespace Governs

theorem accepts (h : l.Governs given read) : Accepts (l.Gives given) read := by
  rintro a t room ⟨found, hpresents, hgiven⟩ hroom
  obtain ⟨fs, hfields, hagree⟩ := fields?_of_presents l.distinct hpresents hroom
  exact h.reads hfields hagree hgiven

theorem presented (h : l.Governs given read) {a : α} {room : Nat} {t : Tree}
    (hread : read room t = some a) :
    ∃ found, Presents l.names found t ∧ ∀ name ∈ l.required, found name ≠ none := by
  obtain ⟨fs, inside, hfields, hrequired⟩ := h.finds hread
  exact ⟨fs.get?, presents_of_fields? l.distinct hfields, hrequired⟩

variable {ms : List (Option String × Tree)} {name : String} {room : Nat}

theorem read_repeated (h : l.Governs given read) (hname : name ∈ l.names)
    (hmany : 1 < (valuesUnder name ms).length) : read room (.object ms) = none := by
  refine Option.eq_none_iff_forall_ne_some.2 fun a hread => ?_
  obtain ⟨found, hpresents, -⟩ := h.presented hread
  cases hpresents with
  | object keys fields =>
    have hone : (found name).toList.length ≤ 1 := Option.length_toList_le
    rw [fields name hname] at hmany
    omega

theorem read_missing (h : l.Governs given read) (hname : name ∈ l.required)
    (hnone : valuesUnder name ms = []) : read room (.object ms) = none := by
  refine Option.eq_none_iff_forall_ne_some.2 fun a hread => ?_
  obtain ⟨found, hpresents, hfound⟩ := h.presented hread
  cases hpresents with
  | object keys fields =>
    rw [fields name (l.known name hname)] at hnone
    exact hfound name hname (by simpa using hnone)

theorem read_length (h : l.Governs given read) {ts : List Tree}
    (hlength : ts.length < l.least ∨ l.names.length < ts.length) :
    read room (.array ts) = none := by
  refine Option.eq_none_iff_forall_ne_some.2 fun a hread => ?_
  obtain ⟨found, hpresents, hfound⟩ := h.presented hread
  cases hpresents with
  | array fields hmost =>
    rcases l.last with hzero | ⟨name, hname, hlast⟩
    · omega
    · have hnone : ts[l.least - 1]? = none := List.getElem?_eq_none (by omega)
      exact hfound name hname ((fields _ name hlast).trans hnone)

theorem read_number (h : l.Governs given read) (n : Numeral) : read room (.number n) = none := by
  refine Option.eq_none_iff_forall_ne_some.2 fun a hread => ?_
  obtain ⟨found, hpresents, -⟩ := h.presented hread
  cases hpresents

end Governs

/-- Whether reading a text follows a layout: if it spells what gives a value through its fields, it
is read as the value, and if it is read, it spells what presents the fields that have to be there.
Plain values are given by what is written for them. -/
structure Decides (l : Layout) (given : α → (String → Option Tree) → Prop) (write : α → Tree)
    (read : Nat → Tree → Option α) (plain : α → Prop) (s : String) : Prop where
  written {a : α} : plain a → l.Gives given a (write a)
  reads {a : α} {t : Tree} : t.SpelledBy s → l.Gives given a t →
    t.nesting ≤ nestingLimit → (Tree.ofText? s).bind (read nestingLimit) = some a
  spelled {a : α} : (Tree.ofText? s).bind (read nestingLimit) = some a →
    ∃ t, t.SpelledBy s ∧
      ∃ found, Presents l.names found t ∧ ∀ name ∈ l.required, found name ≠ none
  repeated {ms : List (Option String × Tree)} {name : String} :
    (Tree.object ms).SpelledBy s → name ∈ l.names → 1 < (valuesUnder name ms).length →
      (Tree.ofText? s).bind (read nestingLimit) = none
  missing {ms : List (Option String × Tree)} {name : String} :
    (Tree.object ms).SpelledBy s → name ∈ l.required → valuesUnder name ms = [] →
      (Tree.ofText? s).bind (read nestingLimit) = none
  length {ts : List Tree} : (Tree.array ts).SpelledBy s →
    ts.length < l.least ∨ l.names.length < ts.length →
      (Tree.ofText? s).bind (read nestingLimit) = none
  rest {t : Tree} {before text rest : List Char} :
    s.toList = before ++ (text ++ rest) → Spaces before → t.Spelled text → ¬Spaces rest →
      (Tree.ofText? s).bind (read nestingLimit) = none

theorem Governs.decides {write : α → Tree} {plain : α → Prop} (h : l.Governs given read)
    (hwritten : ∀ {a}, plain a → l.Gives given a (write a)) (s : String) :
    l.Decides given write read plain s where
  written := hwritten
  reads hs hgives hroom := by
    rw [hs.ofText?, Option.bind_some]
    exact h.accepts hgives hroom
  spelled hread := by
    obtain ⟨t, ht, hread⟩ := Option.bind_eq_some_iff.1 hread
    exact ⟨t, Tree.ofText?_eq_some_iff.1 ht, h.presented hread⟩
  repeated hs hname hmany := by rw [hs.ofText?, Option.bind_some, h.read_repeated hname hmany]
  missing hs hname hnone := by rw [hs.ofText?, Option.bind_some, h.read_missing hname hnone]
  length hs hlength := by rw [hs.ofText?, Option.bind_some, h.read_length hlength]
  rest hs hbefore htext hrest := by
    obtain hnone | ⟨n, hnumber⟩ := Tree.ofText?_of_rest hs hbefore htext hrest
    · rw [hnone, Option.bind_none]
    · rw [hnumber, Option.bind_some, h.read_number]

end Layout

end ProjectRegistry.Json
