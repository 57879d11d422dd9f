/-
# The grammar of the environment

Any text can be in the two variables.  The first one is read by cutting it at the commas, trimming
the pieces, leaving out those that are empty then, and reading a number from each of the others.
Here it is said of each of these steps what it does, without saying how:

* the core of a text is what stands between the white space at its ends (`Text.IsCore`);
* the pieces of a text hold no comma, and the text is these pieces with commas between them
  (`IsPieces`);
* a numeral is a row of ASCII digits with a plus sign before it or not, and denotes a 64-bit word
  (`Denotes`).

`environment_grammar` puts them together: the settings after the environment was heard, the one
way in which it is refused, and that a list which is written with commas, white space and empty
pieces anywhere is read back.
-/
import Mathlib.Data.List.DropRight
import Mathlib.Data.List.Forall2
import TreeBorrows.Proofs.Collect
import TreeBorrows.Settings.Document

namespace TreeBorrows

/-! ## 1. The core of a text -/

namespace Text

/-- The core of a text: there is only white space around it, and none at its own ends. -/
structure IsCore (cs core : List Char) : Prop where
  padded : ∃ before after, cs = before ++ core ++ after ∧
    (∀ c ∈ before, isBlank c = true) ∧ ∀ c ∈ after, isBlank c = true
  head : ∀ c ∈ core.head?, isBlank c = false
  last : ∀ c ∈ core.getLast?, isBlank c = false

theorem dropWhile_isBlank_append {before rest : List Char}
    (hbefore : ∀ c ∈ before, isBlank c = true) (hrest : ∀ c ∈ rest.head?, isBlank c = false) :
    (before ++ rest).dropWhile isBlank = rest := by
  rw [List.dropWhile_append_of_pos hbefore]
  cases rest with
  | nil => rfl
  | cons c rest =>
    have hc : ¬isBlank c = true := by simp [hrest c rfl]
    exact List.dropWhile_cons_of_neg hc

theorem isCore_trim (cs : List Char) : IsCore cs (trim cs) where
  padded := by
    refine ⟨cs.takeWhile isBlank, ((cs.dropWhile isBlank).reverse.takeWhile isBlank).reverse, ?_,
      fun c hc => List.mem_takeWhile_imp hc,
      fun c hc => List.mem_takeWhile_imp (List.mem_reverse.mp hc)⟩
    rw [trim, List.append_assoc, ← List.reverse_append, List.takeWhile_append_dropWhile,
      List.reverse_reverse, List.takeWhile_append_dropWhile]
  head := by
    intro c hc
    -- what is left after the end was trimmed too begins as before
    have hprefix : trim cs <+: cs.dropWhile isBlank := List.rdropWhile_prefix isBlank _
    obtain ⟨rest, hrest⟩ := hprefix
    have hhead : (cs.dropWhile isBlank).head? = some c := by
      rw [← hrest, List.head?_append, Option.mem_def.mp hc]
      rfl
    have hnot := List.head?_dropWhile_not isBlank cs
    rwa [hhead] at hnot
  last := by
    intro c hc
    have hnot := List.head?_dropWhile_not isBlank (cs.dropWhile isBlank).reverse
    rw [trim, List.getLast?_reverse] at hc
    rwa [Option.mem_def.mp hc] at hnot

/-- **Trimming leaves the core.** -/
theorem trim_eq_iff {cs core : List Char} : trim cs = core ↔ IsCore cs core := by
  constructor
  · rintro rfl
    exact isCore_trim cs
  · rintro ⟨⟨before, after, rfl, hbefore, hafter⟩, hhead, hlast⟩
    cases hcore : core with
    | nil =>
      have hblank : ∀ c ∈ before ++ after, isBlank c = true := by
        intro c hc
        exact (List.mem_append.mp hc).elim (hbefore c) (hafter c)
      rw [trim, List.append_nil, List.dropWhile_eq_nil_iff.mpr hblank]
      rfl
    | cons c cs =>
      rw [← hcore]
      have hrest : ∀ d ∈ (core ++ after).head?, isBlank d = false := by
        intro d hd
        exact hhead d (by rw [hcore] at hd ⊢; exact hd)
      have hreverse : ∀ d ∈ core.reverse.head?, isBlank d = false := by
        rw [List.head?_reverse]
        exact hlast
      rw [trim, List.append_assoc, dropWhile_isBlank_append hbefore hrest, List.reverse_append,
        dropWhile_isBlank_append (fun d hd => hafter d (List.mem_reverse.mp hd)) hreverse,
        List.reverse_reverse]

theorem isBlank_of_isDigit {c : Char} (h : c.isDigit = true) : isBlank c = false := by
  have hc : 48 ≤ c.toNat ∧ c.toNat ≤ 57 := Char.isDigit_iff_toNat.mp h
  simp only [isBlank, Bool.or_eq_false_iff, Bool.and_eq_false_iff, decide_eq_false_iff_not,
    beq_eq_false_iff_ne]
  omega

end Text

namespace Environment

/-! ## 2. The pieces of a text -/

/-- These are the pieces of the text between its commas. -/
structure IsPieces (text : List Char) (ps : List (List Char)) : Prop where
  ne_nil : ps ≠ []
  no_comma : ∀ p ∈ ps, ',' ∉ p
  joined : [','].intercalate ps = text

theorem pieces_eq_splitOn (text : List Char) : pieces text = text.splitOn ',' := by
  induction text with
  | nil => rfl
  | cons c cs ih =>
    rw [pieces, List.splitOn_cons_eq_if_modifyHead, ih]
    by_cases hc : c = ','
    · simp [hc]
    · cases hps : cs.splitOn ',' with
      | nil => exact absurd hps (List.splitOn_ne_nil ',' cs)
      | cons p ps => simp [hc]

theorem no_comma_of_mem_pieces {text p : List Char} (hp : p ∈ pieces text) : ',' ∉ p := by
  induction text generalizing p with
  | nil => simp_all [pieces]
  | cons c cs ih =>
    rw [pieces] at hp
    by_cases hc : c = ','
    · rw [if_pos hc] at hp
      rcases List.mem_cons.mp hp with rfl | hp
      · exact List.not_mem_nil
      · exact ih hp
    · have hcomma : ',' ≠ c := fun h => hc h.symm
      rw [if_neg hc] at hp
      cases hps : pieces cs with
      | nil =>
        rw [hps] at hp
        rw [List.mem_singleton.mp hp]
        exact fun h => hcomma (List.mem_singleton.mp h)
      | cons q qs =>
        rw [hps] at hp ih
        rcases List.mem_cons.mp hp with rfl | hp
        · exact List.not_mem_cons_of_ne_of_not_mem hcomma (ih List.mem_cons_self)
        · exact ih (List.mem_cons_of_mem q hp)

/-- **Cutting at the commas gives the pieces.** -/
theorem pieces_eq_iff {text : List Char} {ps : List (List Char)} :
    pieces text = ps ↔ IsPieces text ps := by
  constructor
  · rintro rfl
    refine ⟨?_, fun p hp => no_comma_of_mem_pieces hp, ?_⟩
    · rw [pieces_eq_splitOn]
      exact List.splitOn_ne_nil ',' text
    · rw [pieces_eq_splitOn]
      exact List.intercalate_splitOn ','
  · rintro ⟨hne, hcomma, rfl⟩
    rw [pieces_eq_splitOn, List.splitOn_intercalate ',' hcomma hne]

/-! ## 3. Numerals -/

/-- The text is a numeral for this number: one or more digits of ASCII, with a plus sign before them
or not, for a 64-bit word. -/
def Denotes (cs : List Char) (n : Nat) : Prop :=
  ∃ digits, (cs = digits ∨ cs = '+' :: digits) ∧ digits ≠ [] ∧ (∀ c ∈ digits, c.isDigit = true) ∧
    Nat.ofDigitChars 10 digits 0 = n ∧ n < UInt64.size

theorem digit?_ten (c : Char) :
    Text.digit? 10 c = if c.isDigit then some (c.toNat - '0'.toNat) else none := by
  unfold Text.digit?
  by_cases hc : c.isDigit = true
  · have hle : c.toNat ≤ 57 := (Char.isDigit_iff_toNat.mp hc).2
    have hlt : c.toNat - 48 < 10 := by omega
    simp [hc, hlt]
  · -- the letters are digits of other bases only
    rw [if_neg hc, if_neg hc]
    split
    · simp
    · split <;> simp

theorem digits?_eq_some_iff {acc n : Nat} {cs : List Char} :
    digits? acc cs = some n ↔ (∀ c ∈ cs, c.isDigit = true) ∧ Nat.ofDigitChars 10 cs acc = n := by
  induction cs generalizing acc with
  | nil => simp [digits?]
  | cons c cs ih =>
    rw [digits?, digit?_ten, List.forall_mem_cons, Nat.ofDigitChars_cons]
    by_cases hc : c.isDigit = true
    · simp [hc, ih]
    · simp [hc]

/-- One or more digits, for a 64-bit word. -/
def unsigned? (ds : List Char) : Option Nat :=
  if ds.isEmpty then none
  else match digits? 0 ds with
    | some n => if n < Word.limit then some n else none
    | none => none

theorem word?_plus (ds : List Char) : word? ('+' :: ds) = unsigned? ds := rfl

theorem word?_of_head_ne {cs : List Char} (h : cs.head? ≠ some '+') : word? cs = unsigned? cs := by
  unfold word? unsigned?
  split
  · exact absurd rfl h
  · rfl

theorem unsigned?_eq_some_iff {ds : List Char} {n : Nat} :
    unsigned? ds = some n ↔ ds ≠ [] ∧ (∀ c ∈ ds, c.isDigit = true) ∧
      Nat.ofDigitChars 10 ds 0 = n ∧ n < UInt64.size := by
  unfold unsigned?
  constructor
  · intro h
    split at h
    · nomatch h
    · next hne =>
      split at h
      · next m hm =>
        obtain ⟨hlt, rfl⟩ : m < Word.limit ∧ m = n := by simpa using h
        obtain ⟨hdigits, hvalue⟩ := digits?_eq_some_iff.mp hm
        exact ⟨by simpa using hne, hdigits, hvalue, hlt⟩
      · nomatch h
  · rintro ⟨hne, hdigits, hvalue, hlt⟩
    rw [if_neg (by simpa using hne), digits?_eq_some_iff.mpr ⟨hdigits, hvalue⟩]
    exact if_pos hlt

/-- **What is read from a numeral is the number that it denotes.** -/
theorem word?_eq_some_iff {cs : List Char} {n : Nat} : word? cs = some n ↔ Denotes cs n := by
  by_cases hplus : cs.head? = some '+'
  · obtain ⟨ds, rfl⟩ := List.head?_eq_some_iff.mp hplus
    rw [word?_plus, unsigned?_eq_some_iff]
    constructor
    · exact fun h => ⟨ds, .inr rfl, h⟩
    · rintro ⟨digits, rfl | h, hrest⟩
      · -- the sign itself is no digit
        exact absurd (hrest.2.1 '+' List.mem_cons_self) (by decide)
      · obtain rfl : ds = digits := (List.cons.inj h).2
        exact hrest
  · rw [word?_of_head_ne hplus, unsigned?_eq_some_iff]
    constructor
    · exact fun h => ⟨cs, .inl rfl, h⟩
    · rintro ⟨digits, rfl | rfl, hrest⟩
      · exact hrest
      · exact absurd rfl hplus

theorem word?_eq_none_iff {cs : List Char} : word? cs = none ↔ ∀ n, ¬Denotes cs n := by
  simp [Option.eq_none_iff_forall_ne_some, word?_eq_some_iff]

/-! ## 4. Lists of tags -/

/-- The text lists these numbers: the cores of its pieces that are not empty denote them. -/
def Lists (text : List Char) (tags : List Nat) : Prop :=
  ∃ ps cores, IsPieces text ps ∧ List.Forall₂ Text.IsCore ps cores ∧
    List.Forall₂ Denotes (cores.filter (· ≠ [])) tags

/-- The text has a piece with a core that is not empty and denotes nothing. -/
def HasBadPiece (text : List Char) : Prop :=
  ∃ ps, IsPieces text ps ∧ ∃ p ∈ ps, ∃ core, Text.IsCore p core ∧ core ≠ [] ∧ ∀ n, ¬Denotes core n

/-- A list is cut into its pieces, and these are trimmed. -/
theorem cores_eq_iff {text : List Char} {cores : List (List Char)} :
    (pieces text).map Text.trim = cores ↔
      ∃ ps, IsPieces text ps ∧ List.Forall₂ Text.IsCore ps cores := by
  have htrim : ∀ ps, ps.map Text.trim = cores ↔ List.Forall₂ Text.IsCore ps cores := by
    intro ps
    rw [← List.forall₂_eq_eq_eq, List.forall₂_map_left_iff]
    simp only [Text.trim_eq_iff]
  simp only [← pieces_eq_iff, ← htrim, exists_eq_left']

/-- **A list of tags is read as the numbers that it lists.** -/
theorem tags?_eq_some_iff {value : String} {tags : List Nat} :
    tags? value = some tags ↔ Lists value.toList tags := by
  have hfilter : ∀ cores : List (List Char),
      cores.filter (!·.isEmpty) = cores.filter (· ≠ []) := by
    intro cores
    refine List.filter_congr fun core _ => ?_
    cases core <;> rfl
  unfold tags? Lists
  rw [mapM_eq_some_iff, hfilter]
  simp only [word?_eq_some_iff]
  constructor
  · intro h
    obtain ⟨ps, hps, hcores⟩ := cores_eq_iff.mp (Eq.refl ((pieces value.toList).map Text.trim))
    exact ⟨ps, _, hps, hcores, h⟩
  · rintro ⟨ps, cores, hps, hcores, h⟩
    rwa [cores_eq_iff.mpr ⟨ps, hps, hcores⟩]

example : tags? " 7,, +010\t," = some [7, 10] := by decide +kernel

/-- **No tags are read exactly from a text with a piece that is neither empty nor a numeral.** -/
theorem tags?_eq_none_iff {value : String} :
    tags? value = none ↔ HasBadPiece value.toList := by
  unfold tags? HasBadPiece
  rw [mapM_eq_none_iff]
  simp only [word?_eq_none_iff, ← pieces_eq_iff, ← Text.trim_eq_iff, exists_eq_left',
    List.mem_filter, List.mem_map]
  constructor
  · rintro ⟨_, ⟨⟨p, hp, rfl⟩, hne⟩, hbad⟩
    exact ⟨p, hp, by simpa using hne, hbad⟩
  · rintro ⟨p, hp, hne, hbad⟩
    exact ⟨_, ⟨⟨p, hp, rfl⟩, by simpa using hne⟩, hbad⟩

/-! ## 5. Writing a list -/

theorem isDigit_of_mem_repr {n : Nat} {c : Char} (hc : c ∈ n.repr.toList) : c.isDigit = true := by
  rw [Nat.toList_repr] at hc
  exact Nat.isDigit_of_mem_toDigits (by decide) (by decide) hc

/-- The decimal of a word is a numeral for it. -/
theorem denotes_repr {n : Nat} (h : n < UInt64.size) : Denotes n.repr.toList n := by
  refine ⟨n.repr.toList, .inl rfl, ?_, fun c hc => isDigit_of_mem_repr hc, ?_, h⟩
  · rw [Nat.toList_repr]
    exact Nat.toDigits_ne_nil
  · rw [Nat.toList_repr]
    exact Nat.ofDigitChars_toDigits (by decide) (by decide)

/-- What may be written between two commas: a number or none, and white space around it. -/
structure Item where
  before : List Char
  number : Option Nat
  after : List Char
  before_blank : ∀ c ∈ before, Text.isBlank c = true
  after_blank : ∀ c ∈ after, Text.isBlank c = true
  number_lt : ∀ n ∈ number, n < UInt64.size

namespace Item

/-- The number in decimal, without leading zeros. -/
def numeral (item : Item) : List Char := item.number.elim [] fun n => n.repr.toList

def text (item : Item) : List Char := item.before ++ item.numeral ++ item.after

theorem isDigit_of_mem_numeral {item : Item} {c : Char} (hc : c ∈ item.numeral) :
    c.isDigit = true := by
  unfold numeral at hc
  cases hn : item.number with
  | none =>
    rw [hn] at hc
    nomatch hc
  | some n =>
    rw [hn] at hc
    exact isDigit_of_mem_repr hc

/-- The number is the core of the text, or the text has no core. -/
theorem isCore_numeral (item : Item) : Text.IsCore item.text item.numeral where
  padded := ⟨item.before, item.after, rfl, item.before_blank, item.after_blank⟩
  head _ hc := Text.isBlank_of_isDigit (isDigit_of_mem_numeral (List.mem_of_head? hc))
  last _ hc := Text.isBlank_of_isDigit (isDigit_of_mem_numeral (List.mem_of_getLast? hc))

theorem comma_notMem_text (item : Item) : ',' ∉ item.text := by
  intro h
  rcases List.mem_append.mp h with h | h
  · rcases List.mem_append.mp h with h | h
    · exact absurd (item.before_blank ',' h) (by decide)
    · exact absurd (isDigit_of_mem_numeral h) (by decide)
  · exact absurd (item.after_blank ',' h) (by decide)

end Item

theorem forall₂_denotes_numerals : ∀ items : List Item,
    List.Forall₂ Denotes ((items.map Item.numeral).filter (· ≠ [])) (items.filterMap Item.number)
  | [] => .nil
  | item :: items => by
    have ih := forall₂_denotes_numerals items
    rw [List.map_cons]
    cases hn : item.number with
    | none =>
      have hnumeral : item.numeral = [] := by rw [Item.numeral, hn]; rfl
      rw [List.filterMap_cons_none hn, List.filter_cons_of_neg (by simp [hnumeral])]
      exact ih
    | some n =>
      have hdenotes := denotes_repr (item.number_lt n hn)
      have hnumeral : item.numeral = n.repr.toList := by rw [Item.numeral, hn]; rfl
      rw [List.filterMap_cons_some hn, List.filter_cons_of_pos (by simp [hnumeral]), hnumeral]
      exact .cons hdenotes ih

/-- **Items with commas between them list their numbers.** -/
theorem lists_items (items : List Item) :
    Lists ([','].intercalate (items.map Item.text)) (items.filterMap Item.number) := by
  cases hitems : items with
  | nil =>
    -- no items at all are an empty text, which is one empty piece
    have hcore : Text.IsCore [] [] := Text.isCore_trim []
    exact ⟨[[]], [[]], ⟨by simp, by simp, rfl⟩, .cons hcore .nil, .nil⟩
  | cons item rest =>
    rw [← hitems]
    refine ⟨items.map Item.text, items.map Item.numeral, ⟨by simp [hitems], ?_, rfl⟩, ?_,
      forall₂_denotes_numerals items⟩
    · intro p hp
      obtain ⟨i, -, rfl⟩ := List.mem_map.mp hp
      exact i.comma_notMem_text
    · rw [List.forall₂_map_left_iff, List.forall₂_map_right_iff, List.forall₂_same]
      exact fun i _ => i.isCore_numeral

/-! ## 6. The settings after the environment was heard -/

/-- The environment adds these tags: those that the variable lists, and none if it is not set. -/
def Adds (env : Environment) (tags : List Nat) : Prop :=
  match env.tracked with
  | none => tags = []
  | some value => Lists value.toList tags

/-- The environment turns one choice about skipping into another: it keeps it if the variable is not
set, and skipping is on exactly if there is nothing but `0` in it otherwise. -/
def Settles (env : Environment) (before after : Bool) : Prop :=
  match env.noForeignSkipping with
  | none => after = before
  | some value => after = true ↔ Text.IsCore value.toList ['0']

theorem furtherTags_of_tracked {env : Environment} {value : String}
    (h : env.tracked = some value) :
    env.furtherTags = (tags? value).elim (.error value) .ok := by
  rw [furtherTags, h]
  cases htags : tags? value <;> simp [htags]

theorem furtherTags_eq_ok_iff {env : Environment} {tags : List Nat} :
    env.furtherTags = .ok tags ↔ env.Adds tags := by
  unfold Adds
  cases hvalue : env.tracked with
  | none => simp [furtherTags, hvalue, eq_comm]
  | some value =>
    show _ ↔ Lists value.toList tags
    rw [← tags?_eq_some_iff, furtherTags_of_tracked hvalue]
    cases tags? value <;> simp

theorem furtherTags_eq_error_iff {env : Environment} {value : String} :
    env.furtherTags = .error value ↔ env.tracked = some value ∧ HasBadPiece value.toList := by
  rw [← tags?_eq_none_iff]
  cases hvalue : env.tracked with
  | none => simp [furtherTags, hvalue]
  | some v =>
    rw [furtherTags_of_tracked hvalue]
    cases htags : tags? v <;> grind

theorem settles_iff {env : Environment} {before after : Bool} :
    env.Settles before after ↔ after = env.foreignSkipping before := by
  unfold Settles foreignSkipping
  cases env.noForeignSkipping with
  | none => rfl
  | some value =>
    have hkeeps : Text.IsCore value.toList ['0'] ↔ keepsSkipping value = true :=
      Text.trim_eq_iff.symm.trans beq_iff_eq.symm
    show (_ ↔ Text.IsCore value.toList ['0']) ↔ after = keepsSkipping value
    rw [hkeeps]
    exact Bool.eq_iff_iff.symm

end Environment

open Environment

theorem withEnvironment_eq_error_iff {s : Settings} {env : Environment} {value : String} :
    s.withEnvironment env = .error value ↔
      env.tracked = some value ∧ HasBadPiece value.toList := by
  rw [← furtherTags_eq_error_iff, Settings.withEnvironment]
  cases env.furtherTags <;> simp [Except.map]

theorem withEnvironment_eq_ok_iff {s s' : Settings} {env : Environment} :
    s.withEnvironment env = .ok s' ↔
      ∃ tags foreign, env.Adds tags ∧ env.Settles s.foreignSkipping foreign ∧
        s' = { tracked := s.tracked ++ tags, foreignSkipping := foreign,
               mergeSlack := s.mergeSlack } := by
  simp only [← furtherTags_eq_ok_iff, settles_iff, exists_eq_left, exists_and_left,
    Settings.withEnvironment]
  cases env.furtherTags <;> simp [Except.map, eq_comm]

theorem hear_eq_ok_iff {s s' : Settings} {env : Environment} :
    Settings.hear env s = .ok s' ↔ s.withEnvironment env = .ok s' := by
  unfold Settings.hear
  cases s.withEnvironment env <;> simp [Except.mapError]

theorem hear_eq_error_iff {s : Settings} {env : Environment} {e : SettingsError} :
    Settings.hear env s = .error e ↔
      ∃ value, s.withEnvironment env = .error value ∧ e = .environment value := by
  unfold Settings.hear
  cases s.withEnvironment env <;> simp [Except.mapError, eq_comm]

/-- **What the environment does to settings.**  It is refused exactly if the first variable is set
and has a piece that is neither empty nor a numeral, and then the whole value is reported.
Otherwise the tags that it lists follow those that there are, the second variable settles whether
foreign accesses are skipped, and nothing else changes.  A list of numbers that is written in
decimal, with commas, white space and empty pieces anywhere, is read back. -/
theorem environment_grammar (s : Settings) (env : Environment) :
    (∀ e, Settings.hear env s = .error e ↔
      ∃ value, env.tracked = some value ∧ HasBadPiece value.toList ∧ e = .environment value) ∧
    (∀ s', Settings.hear env s = .ok s' ↔
      ∃ tags foreign, env.Adds tags ∧ env.Settles s.foreignSkipping foreign ∧
        s' = { tracked := s.tracked ++ tags, foreignSkipping := foreign,
               mergeSlack := s.mergeSlack }) ∧
    ∀ items : List Item,
      env.tracked = some (String.ofList ([','].intercalate (items.map Item.text))) →
        ∃ s', Settings.hear env s = .ok s' ∧
          s'.tracked = s.tracked ++ items.filterMap Item.number := by
  refine ⟨fun e => ?_, fun s' => hear_eq_ok_iff.trans withEnvironment_eq_ok_iff,
    fun items hvalue => ?_⟩
  · rw [hear_eq_error_iff]
    simp only [withEnvironment_eq_error_iff, and_assoc]
  · have hadds : env.Adds (items.filterMap Item.number) := by
      rw [Adds, hvalue]
      show Lists (String.ofList _).toList _
      rw [String.toList_ofList]
      exact lists_items items
    exact ⟨_, hear_eq_ok_iff.mpr (withEnvironment_eq_ok_iff.mpr
      ⟨_, _, hadds, settles_iff.mpr rfl, rfl⟩), rfl⟩

end TreeBorrows
