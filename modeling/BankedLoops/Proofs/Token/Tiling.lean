import Mathlib.Algebra.Ring.Nat
import BankedLoops.Proofs.Token.Spelling

/-!
# Lexemes tile the source

At every place of a text the longest match is cut off: a number, a word, a symbol, or blanks and
comments, which are passed over. `lexemes_tile` says that the lexemes of a source text are what this
rule leaves of it, from the first byte to the last.
-/

namespace BankedLoops

namespace Lexer

/-! ### Matches -/

/-- A run of digits. -/
def IsDigits (text : List Char) : Prop := text ≠ [] ∧ ∀ c ∈ text, c.isDigit = true

/-- A letter or an underscore, then letters, digits and underscores. -/
def IsWordText : List Char → Prop
  | [] => False
  | c :: cs => isWordStart c = true ∧ ∀ d ∈ cs, isWordRest d = true

/-- A run of blanks, or a comment up to some place on its line. -/
inductive Skipped : List Char → Prop where
  | blanks {text : List Char} (some_ : text ≠ []) (all : ∀ c ∈ text, isBlank c = true) : Skipped text
  | comment {text : List Char} (line : ∀ c ∈ text, c ≠ '\n') : Skipped ('/' :: '/' :: text)

/-- What can be cut off in one piece. A keyword is a word. -/
inductive Matches : List Char → Prop where
  | digits {text : List Char} (run : IsDigits text) : Matches text
  | word {text : List Char} (run : IsWordText text) : Matches text
  | symbol (s : Symbol) : Matches s.chars
  | skipped {text : List Char} (skipped : Skipped text) : Matches text

/-- `text` is the longest match in front of `rest`. -/
structure IsLongest (text rest : List Char) : Prop where
  matches_ : Matches text
  longest : ∀ other, other <+: text ++ rest → Matches other → other.length ≤ text.length

/-- The texts of a token. A number may have leading zeros, and a name is no keyword. -/
inductive TextOf : Token → List Char → Prop where
  | int {text : List Char} {n : Nat} (run : IsDigits text) (value : Nat.ofDigitChars 10 text 0 = n)
      (word : n < 2 ^ 64) : TextOf (.int n) text
  | ident {name : String} (run : IsWordText name.toList) (free : ∀ k : Keyword, k.text ≠ name) :
      TextOf (.ident name) name.toList
  | keyword (k : Keyword) : TextOf (.keyword k) k.text.toList
  | symbol (s : Symbol) : TextOf (.symbol s) s.chars

/-- What is cut off in front of `rest`. What is no token is a number that is no word, or a character
that begins no match. -/
inductive Cut : Lexeme.Item → List Char → List Char → Prop where
  | token {t : Token} {text rest : List Char} (longest : IsLongest text rest) (spelled : TextOf t text) :
      Cut (.token t) text rest
  | overflow {text rest : List Char} (longest : IsLongest text rest) (run : IsDigits text)
      (large : 2 ^ 64 ≤ Nat.ofDigitChars 10 text 0) : Cut (.unexpected (String.ofList text)) text rest
  | stray {c : Char} {rest : List Char} (none_ : ∀ other, other <+: c :: rest → ¬ Matches other) :
      Cut (.unexpected (String.ofList [c])) [c] rest

/-- A text that begins at byte `offset`, piece by piece: the lexemes are what is not passed over. -/
inductive Tiles : Nat → List Char → List Lexeme → Prop where
  | done (offset : Nat) : Tiles offset [] []
  | skip {offset : Nat} {text rest : List Char} {ls : List Lexeme} (longest : IsLongest text rest)
      (skipped : Skipped text) (later : Tiles (offset + byteSize text) rest ls) :
      Tiles offset (text ++ rest) ls
  | lexeme {offset : Nat} {item : Lexeme.Item} {text rest : List Char} {ls : List Lexeme}
      (cut : Cut item text rest) (later : Tiles (offset + byteSize text) rest ls) :
      Tiles offset (text ++ rest) (⟨offset, offset + byteSize text, item⟩ :: ls)

theorem Skipped.ne_nil {text : List Char} (skipped : Skipped text) : text ≠ [] := by
  cases skipped with
  | blanks some_ _ => exact some_
  | comment _ => exact List.cons_ne_nil _ _

/-- No symbol begins like a blank, a comment, a number or a word. -/
theorem symbol_chars (s : Symbol) : ∃ c cs, s.chars = c :: cs ∧ isBlank c = false ∧ c ≠ '/' ∧
    c.isDigit = false ∧ isWordStart c = false := by
  cases s <;> exact ⟨_, _, rfl, by decide, by decide, by decide, by decide⟩

theorem Matches.ne_nil {text : List Char} (found : Matches text) : text ≠ [] := by
  cases found with
  | digits run => exact run.1
  | word run =>
    rintro rfl
    exact run
  | symbol s =>
    obtain ⟨c, cs, chars, _⟩ := symbol_chars s
    rw [chars]
    exact List.cons_ne_nil _ _
  | skipped skipped => exact skipped.ne_nil

/-- The first character decides what kind of match there can be. -/
theorem Matches.cons {c : Char} {cs : List Char} (found : Matches (c :: cs)) :
    (isBlank c = true ∧ ∀ d ∈ cs, isBlank d = true) ∨
    (c = '/' ∧ ∃ line, cs = '/' :: line ∧ ∀ d ∈ line, d ≠ '\n') ∨
    (c.isDigit = true ∧ ∀ d ∈ cs, d.isDigit = true) ∨
    (isWordStart c = true ∧ ∀ d ∈ cs, isWordRest d = true) ∨
    ∃ s : Symbol, s.chars = c :: cs := by
  generalize text : c :: cs = whole at found
  cases found with
  | digits run =>
    subst text
    obtain ⟨first, others⟩ := List.forall_mem_cons.mp run.2
    exact .inr (.inr (.inl ⟨first, others⟩))
  | word run =>
    subst text
    exact .inr (.inr (.inr (.inl run)))
  | symbol s => exact .inr (.inr (.inr (.inr ⟨s, rfl⟩)))
  | skipped skipped =>
    cases skipped with
    | blanks _ all =>
      subst text
      obtain ⟨first, others⟩ := List.forall_mem_cons.mp all
      exact .inl ⟨first, others⟩
    | comment line =>
      cases text
      exact .inr (.inl ⟨rfl, _, rfl, line⟩)

/-- A character that begins a symbol begins nothing else. -/
theorem plain_of_symbol {s : Symbol} {c : Char} {cs : List Char} (chars : s.chars = c :: cs) :
    isBlank c = false ∧ c ≠ '/' ∧ c.isDigit = false ∧ isWordStart c = false := by
  obtain ⟨d, ds, begins, plain⟩ := symbol_chars s
  rw [begins] at chars
  cases chars
  exact plain

/-! ### The longest match -/

/-- A run is no longer than the run that begins there. -/
theorem length_le_takeWhile {p : Char → Bool} {run cs : List Char} (inside : run <+: cs)
    (all : ∀ c ∈ run, p c = true) : run.length ≤ (cs.takeWhile p).length := by
  obtain ⟨rest, rfl⟩ := inside
  rw [List.takeWhile_append_of_pos all, List.length_append]
  exact Nat.le_add_right _ _

/-- Where all matches that begin with `c` go on with characters of one class, the run of that class is
the longest. -/
theorem isLongest_run {p : Char → Bool} {c : Char} {cs : List Char}
    (whole : Matches (c :: cs.takeWhile p))
    (only : ∀ ds, Matches (c :: ds) → ∀ d ∈ ds, p d = true) :
    IsLongest (c :: cs.takeWhile p) (cs.dropWhile p) := by
  refine ⟨whole, fun other inside found => ?_⟩
  rw [List.cons_append, List.takeWhile_append_dropWhile] at inside
  cases other with
  | nil => exact Nat.zero_le _
  | cons d ds =>
    obtain ⟨rfl, tail⟩ := List.cons_prefix_cons.mp inside
    exact Nat.succ_le_succ (length_le_takeWhile tail (only ds found))

theorem forall_mem_cons_takeWhile {p q : Char → Bool} {c : Char} {cs : List Char} (first : q c = true)
    (same : ∀ d, p d = true → q d = true) : ∀ d ∈ c :: cs.takeWhile p, q d = true :=
  List.forall_mem_cons.mpr ⟨first, fun d member =>
    same d (List.all_eq_true.mp List.all_takeWhile d member)⟩

theorem skipped_blanks {c : Char} {cs : List Char} (blank : isBlank c = true) :
    Skipped (c :: cs.takeWhile isBlank) :=
  .blanks (List.cons_ne_nil _ _) (forall_mem_cons_takeWhile blank fun _ => id)

theorem isLongest_blanks {c : Char} {cs : List Char} (blank : isBlank c = true) :
    IsLongest (c :: cs.takeWhile isBlank) (cs.dropWhile isBlank) := by
  refine isLongest_run (.skipped (skipped_blanks blank)) fun ds found => ?_
  rcases found.cons with ⟨_, blanks⟩ | ⟨rfl, _⟩ | ⟨digit, _⟩ | ⟨start, _⟩ | ⟨s, chars⟩
  · exact blanks
  · cases blank
  · rw [isBlank_eq_false (isWordRest_of_isDigit digit)] at blank
    cases blank
  · rw [isBlank_eq_false (isWordRest_of_isWordStart start)] at blank
    cases blank
  · rw [(plain_of_symbol chars).1] at blank
    cases blank

theorem skipped_comment {cs : List Char} :
    Skipped ('/' :: ('/' :: cs).takeWhile (· != '\n')) := by
  rw [List.takeWhile_cons_of_pos rfl]
  exact .comment fun d member => by simpa using List.all_eq_true.mp List.all_takeWhile d member

theorem isLongest_comment {cs : List Char} :
    IsLongest ('/' :: ('/' :: cs).takeWhile (· != '\n')) (('/' :: cs).dropWhile (· != '\n')) := by
  refine isLongest_run (.skipped skipped_comment) fun ds found => ?_
  rcases found.cons with ⟨blank, _⟩ | ⟨_, line, rfl, all⟩ | ⟨digit, _⟩ | ⟨start, _⟩ | ⟨s, chars⟩
  · cases blank
  · exact List.forall_mem_cons.mpr ⟨rfl, fun d member => by simpa using all d member⟩
  · cases digit
  · cases start
  · exact absurd rfl (plain_of_symbol chars).2.1

theorem isDigits_run {c : Char} {cs : List Char} (digit : c.isDigit = true) :
    IsDigits (c :: cs.takeWhile Char.isDigit) :=
  ⟨List.cons_ne_nil _ _, forall_mem_cons_takeWhile digit fun _ => id⟩

theorem isLongest_digits {c : Char} {cs : List Char} (digit : c.isDigit = true) :
    IsLongest (c :: cs.takeWhile Char.isDigit) (cs.dropWhile Char.isDigit) := by
  refine isLongest_run (.digits (isDigits_run digit)) fun ds found => ?_
  rcases found.cons with ⟨blank, _⟩ | ⟨rfl, _⟩ | ⟨_, digits⟩ | ⟨start, _⟩ | ⟨s, chars⟩
  · rw [isBlank_eq_false (isWordRest_of_isDigit digit)] at blank
    cases blank
  · cases digit
  · exact digits
  · rw [isDigit_eq_false start] at digit
    cases digit
  · rw [(plain_of_symbol chars).2.2.1] at digit
    cases digit

theorem isWordText_run {c : Char} {cs : List Char} (start : isWordStart c = true) :
    IsWordText (c :: cs.takeWhile isWordRest) :=
  ⟨start, List.all_eq_true.mp List.all_takeWhile⟩

theorem isLongest_word {c : Char} {cs : List Char} (start : isWordStart c = true) :
    IsLongest (c :: cs.takeWhile isWordRest) (cs.dropWhile isWordRest) := by
  refine isLongest_run (.word (isWordText_run start)) fun ds found => ?_
  rcases found.cons with ⟨blank, _⟩ | ⟨rfl, _⟩ | ⟨digit, _⟩ | ⟨_, word⟩ | ⟨s, chars⟩
  · rw [isBlank_eq_false (isWordRest_of_isWordStart start)] at blank
    cases blank
  · cases start
  · rw [isDigit_eq_false start] at digit
    cases digit
  · exact word
  · rw [(plain_of_symbol chars).2.2.2] at start
    cases start

/-- The symbols are tried from the longest to the shortest. -/
theorem symbols_by_length : Symbol.all.Pairwise fun s t => t.chars.length ≤ s.chars.length := by
  decide

theorem mem_symbols (s : Symbol) : s ∈ Symbol.all := by
  cases s <;> decide

theorem length_le_longest {s t : Symbol} {cs : List Char} (found : Symbol.longest? cs = some s)
    (other : t.chars <+: cs) : t.chars.length ≤ s.chars.length := by
  obtain ⟨_, before, behind, all, passed⟩ := List.find?_eq_some_iff_append.mp found
  have sorted := symbols_by_length
  have member := mem_symbols t
  rw [all] at sorted member
  rcases List.mem_append.mp member with early | late
  · have refused := passed t early
    rw [List.isPrefixOf_iff_prefix.mpr other] at refused
    cases refused
  · rcases List.mem_cons.mp late with rfl | late
    · exact Nat.le_refl _
    · exact List.rel_of_pairwise_cons (List.pairwise_append.mp sorted).2.1 late

theorem prefix_of_longest {s : Symbol} {cs : List Char} (found : Symbol.longest? cs = some s) :
    s.chars <+: cs :=
  by
  obtain ⟨holds, _⟩ := List.find?_eq_some_iff_append.mp found
  exact List.isPrefixOf_iff_prefix.mp holds

/-- Behind a character that begins neither blanks, a comment, a number nor a word there are only
symbols. -/
theorem Matches.symbol_of {c : Char} {cs ds : List Char} (found : Matches (c :: ds)) (inside : ds <+: cs)
    (blank : isBlank c = false) (comment : ¬ (c = '/' ∧ cs.head? = some '/'))
    (digit : c.isDigit = false) (start : isWordStart c = false) : ∃ s : Symbol, s.chars = c :: ds := by
  rcases found.cons with ⟨isBlank, _⟩ | ⟨slash, line, rfl, _⟩ | ⟨isDigit, _⟩ | ⟨isStart, _⟩ | symbol
  · rw [blank] at isBlank
    cases isBlank
  · obtain ⟨rest, rfl⟩ := inside
    exact absurd ⟨slash, rfl⟩ comment
  · rw [digit] at isDigit
    cases isDigit
  · rw [start] at isStart
    cases isStart
  · exact symbol

theorem isLongest_symbol {c : Char} {cs rest : List Char} {s : Symbol}
    (split : c :: cs = s.chars ++ rest) (found : Symbol.longest? (c :: cs) = some s)
    (blank : isBlank c = false) (comment : ¬ (c = '/' ∧ cs.head? = some '/'))
    (digit : c.isDigit = false) (start : isWordStart c = false) : IsLongest s.chars rest := by
  refine ⟨.symbol s, fun other inside match_ => ?_⟩
  rw [← split] at inside
  cases other with
  | nil => exact Nat.zero_le _
  | cons d ds =>
    obtain ⟨rfl, tail⟩ := List.cons_prefix_cons.mp inside
    obtain ⟨t, chars⟩ := match_.symbol_of tail blank comment digit start
    rw [← chars] at inside ⊢
    exact length_le_longest found inside

theorem stray_of_longest {c : Char} {cs : List Char} (absent : Symbol.longest? (c :: cs) = none)
    (blank : isBlank c = false) (comment : ¬ (c = '/' ∧ cs.head? = some '/'))
    (digit : c.isDigit = false) (start : isWordStart c = false) :
    ∀ other, other <+: c :: cs → ¬ Matches other := by
  intro other inside found
  cases other with
  | nil => exact found.ne_nil rfl
  | cons d ds =>
    obtain ⟨rfl, tail⟩ := List.cons_prefix_cons.mp inside
    obtain ⟨s, chars⟩ := found.symbol_of tail blank comment digit start
    rw [← chars] at inside
    exact List.find?_eq_none.mp absent s (mem_symbols s) (List.isPrefixOf_iff_prefix.mpr inside)

/-! ### Piece by piece -/

theorem ofText?_eq_none {name : String} (free : Keyword.ofText? name = none) (k : Keyword) :
    k.text ≠ name := by
  have refused := List.find?_eq_none.mp free k (by cases k <;> decide)
  simpa using refused

theorem text_of_ofText? {name : String} {k : Keyword} (found : Keyword.ofText? name = some k) :
    k.text = name := by
  simpa using List.find?_some found

theorem textOf_word {text : List Char} (run : IsWordText text) :
    TextOf (word (String.ofList text)) text := by
  have chars : (String.ofList text).toList = text := String.toList_ofList
  unfold word
  split
  · next k found =>
    have spelled := TextOf.keyword k
    rwa [text_of_ofText? found, chars] at spelled
  · next free =>
    rw [← chars] at run
    have spelled := TextOf.ident run (ofText?_eq_none free)
    rwa [chars] at spelled

theorem cut_number {text rest : List Char} (longest : IsLongest text rest) (run : IsDigits text) :
    Cut (number text) text rest := by
  unfold number
  dsimp only
  split
  · next fits => exact .token longest (.int run rfl (Word.fits_iff.mp fits))
  · next large =>
    refine .overflow longest run ?_
    rw [Word.fits_iff] at large
    exact Nat.le_of_not_lt large

/-- What is cut off at one place. -/
structure Cuts (c : Char) (cs : List Char) (found : Match) : Prop where
  covers : ∃ rest, c :: cs = found.covered ++ rest
  piece : ∀ rest, c :: cs = found.covered ++ rest → match found.item with
    | none => IsLongest found.covered rest ∧ Skipped found.covered
    | some item => Cut item found.covered rest

theorem Cuts.of {c : Char} {cs : List Char} {found : Match} (rest : List Char)
    (split : c :: cs = found.covered ++ rest) (piece : match found.item with
      | none => IsLongest found.covered rest ∧ Skipped found.covered
      | some item => Cut item found.covered rest) : Cuts c cs found := by
  refine ⟨⟨rest, split⟩, fun other same => ?_⟩
  obtain rfl : rest = other := List.append_cancel_left (split.symm.trans same)
  exact piece

theorem next_cuts (c : Char) (cs : List Char) : Cuts c cs (next c cs) := by
  have run (p : Char → Bool) : c :: cs = (c :: cs.takeWhile p) ++ cs.dropWhile p := by
    rw [List.cons_append, List.takeWhile_append_dropWhile]
  unfold next
  split
  · next blank => exact .of _ (run _) ⟨isLongest_blanks blank, skipped_blanks blank⟩
  next notBlank =>
  split
  · next comment =>
    simp only [Bool.and_eq_true, beq_iff_eq] at comment
    obtain ⟨rfl, slash⟩ := comment
    cases cs with
    | nil => cases slash
    | cons d ds =>
      cases slash
      exact .of _ (run _) ⟨isLongest_comment, skipped_comment⟩
  next notComment =>
  split
  · next digit => exact .of _ (run _) (cut_number (isLongest_digits digit) (isDigits_run digit))
  next notDigit =>
  split
  · next start =>
    exact .of _ (run _) (.token (isLongest_word start) (textOf_word (isWordText_run start)))
  next notStart =>
  simp only [Bool.not_eq_true, Bool.and_eq_true, beq_iff_eq] at notBlank notComment notDigit notStart
  split
  · next s found =>
    obtain ⟨rest, split⟩ := prefix_of_longest found
    have longest := isLongest_symbol split.symm found notBlank notComment notDigit notStart
    exact .of rest split.symm (.token longest (.symbol s))
  · next absent =>
    exact .of cs rfl (.stray (stray_of_longest absent notBlank notComment notDigit notStart))

/-! ### The whole text -/

theorem byteSize_eq (cs : List Char) : byteSize cs = (String.ofList cs).utf8ByteSize := by
  induction cs with
  | nil => rfl
  | cons c cs ih =>
    rw [byteSize, ih, String.ofList_cons, String.utf8ByteSize_append, String.utf8ByteSize_singleton]

theorem byteSize_append (cs ds : List Char) : byteSize (cs ++ ds) = byteSize cs + byteSize ds := by
  rw [byteSize_eq, String.ofList_append, String.utf8ByteSize_append, ← byteSize_eq, ← byteSize_eq]

theorem byteSize_pos {text : List Char} (some_ : text ≠ []) : 0 < byteSize text := by
  cases text with
  | nil => exact absurd rfl some_
  | cons c cs => exact Nat.add_pos_left c.utf8Size_pos _

theorem Cut.ne_nil {item : Lexeme.Item} {text rest : List Char} (cut : Cut item text rest) :
    text ≠ [] := by
  cases cut with
  | token longest _ => exact longest.matches_.ne_nil
  | overflow _ run _ => exact run.1
  | stray _ => exact List.cons_ne_nil _ _

/-- Text that is already covered is passed over. -/
theorem scan_owed (covered rest : List Char) (offset : Nat) :
    scan covered.length offset (covered ++ rest) = scan 0 (offset + byteSize covered) rest := by
  induction covered generalizing offset with
  | nil => rfl
  | cons c covered ih =>
    rw [List.length_cons, List.cons_append, scan, ih, byteSize, Nat.add_assoc]

/-- Cutting off one piece. -/
theorem scan_cons {c : Char} {cs covered rest : List Char} {item : Option Lexeme.Item}
    (found : next c cs = ⟨covered, item⟩) (split : c :: cs = covered ++ rest) (some_ : covered ≠ [])
    (offset : Nat) : scan 0 offset (c :: cs) =
      (item.map fun item => ⟨offset, offset + byteSize covered, item⟩).toList ++
        scan 0 (offset + byteSize covered) rest := by
  obtain ⟨d, others, rfl⟩ := List.exists_cons_of_ne_nil some_
  have parts : c :: cs = d :: (others ++ rest) := split
  obtain ⟨rfl, rfl⟩ := List.cons.inj parts
  have later := scan_owed others rest (offset + c.utf8Size)
  rw [scan, found]
  dsimp only
  rw [List.length_cons, Nat.add_sub_cancel, later, byteSize, ← Nat.add_assoc]
  cases item <;> rfl

theorem tiles_scan (offset : Nat) (cs : List Char) : Tiles offset cs (scan 0 offset cs) := by
  induction length : cs.length using Nat.strongRecOn generalizing offset cs with
  | ind n ih =>
    cases cs with
    | nil => exact .done offset
    | cons c cs =>
      have cuts := next_cuts c cs
      obtain ⟨rest, split⟩ := cuts.covers
      have piece := cuts.piece rest split
      generalize found : next c cs = m at split piece
      obtain ⟨covered, item⟩ := m
      replace split : c :: cs = covered ++ rest := split
      have some_ : covered ≠ [] := by
        cases item with
        | none => exact piece.2.ne_nil
        | some item => exact piece.ne_nil
      have shorter : rest.length < n := by
        have total := congrArg List.length split
        rw [List.length_append] at total
        have room := List.length_pos_of_ne_nil some_
        omega
      have later := ih _ shorter (offset + byteSize covered) rest rfl
      rw [scan_cons found split some_, split]
      cases item with
      | none => exact .skip piece.1 piece.2 later
      | some item => exact .lexeme piece later

namespace Tiles

variable {offset : Nat} {cs : List Char} {ls : List Lexeme}

/-- Every lexeme is cut off where it stands. -/
theorem stands (tiles : Tiles offset cs ls) : ∀ l ∈ ls, ∃ before text after,
    cs = before ++ text ++ after ∧ l.start = offset + byteSize before ∧
      l.stop = l.start + byteSize text ∧ Cut l.item text after := by
  induction tiles with
  | done offset => exact nofun
  | @skip offset passed rest ls _ _ _ ih =>
    intro l member
    obtain ⟨before, text, after, rfl, start, stop, cut⟩ := ih l member
    refine ⟨passed ++ before, text, after, by simp only [List.append_assoc], ?_, stop, cut⟩
    rw [start, byteSize_append, Nat.add_assoc]
  | @lexeme offset item taken rest ls cut _ ih =>
    refine List.forall_mem_cons.mpr ⟨⟨[], taken, rest, rfl, rfl, rfl, cut⟩, fun l member => ?_⟩
    obtain ⟨before, text, after, rfl, start, stop, cut⟩ := ih l member
    refine ⟨taken ++ before, text, after, by simp only [List.append_assoc], ?_, stop, cut⟩
    rw [start, byteSize_append, Nat.add_assoc]

theorem offset_le (tiles : Tiles offset cs ls) : ∀ l ∈ ls, offset ≤ l.start := by
  intro l member
  obtain ⟨before, _, _, _, start, _⟩ := tiles.stands l member
  rw [start]
  exact Nat.le_add_right _ _

theorem ordered (tiles : Tiles offset cs ls) : ls.Pairwise fun l later => l.stop ≤ later.start := by
  induction tiles with
  | done offset => exact .nil
  | skip _ _ _ ih => exact ih
  | lexeme _ later ih => exact .cons later.offset_le ih

end Tiles

end Lexer

open Lexer in
/-- The lexemes of a source text follow each other, and between them only blanks and comments up to the
end of the line are passed over. Each of them is a slice of the text, the longest match at its place. -/
theorem lexemes_tile (source : String) :
    Tiles 0 source.toList (lexemes source) ∧
      (lexemes source).Pairwise (fun l later => l.stop ≤ later.start) ∧
      ∀ l ∈ lexemes source, l.start < l.stop ∧ ∃ before text after : String,
        source = before ++ text ++ after ∧ before.utf8ByteSize = l.start ∧
          (before ++ text).utf8ByteSize = l.stop ∧ Cut l.item text.toList after.toList := by
  have tiles := tiles_scan 0 source.toList
  refine ⟨tiles, tiles.ordered, fun l member => ?_⟩
  obtain ⟨before, text, after, split, start, stop, cut⟩ := tiles.stands l member
  rw [Nat.zero_add] at start
  have room := byteSize_pos cut.ne_nil
  refine ⟨by omega, .ofList before, .ofList text, .ofList after, ?_, ?_, ?_, ?_⟩
  · rw [← String.ofList_append, ← String.ofList_append, ← split, String.ofList_toList]
  · rw [start, byteSize_eq]
  · rw [← String.ofList_append, ← byteSize_eq, byteSize_append, stop, start]
  · rwa [String.toList_ofList, String.toList_ofList]

/-- A keyword that goes on is a name, and a shift is no comparison. -/
example : lexemes "lets<<1 // x" = [⟨0, 4, .token (.ident "lets")⟩, ⟨4, 6, .token (.symbol .shl)⟩,
    ⟨6, 7, .token (.int 1)⟩] := by decide +kernel

end BankedLoops
