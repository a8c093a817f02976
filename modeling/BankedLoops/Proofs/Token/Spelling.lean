import BankedLoops.Proofs.Names
import BankedLoops.Proofs.Parser.Written

/-!
# Texts and their tokens

The text of a token is cut into that token again, unless the character behind it goes on with it. So
a text can be put together token by token from its end: `Spells` says what it is cut into.
-/

namespace BankedLoops

/-- A word that is no keyword. -/
structure IsName (name : String) : Prop where
  chars : ∃ c cs, name.toList = c :: cs ∧ Lexer.isWordStart c = true ∧
    ∀ d ∈ cs, Lexer.isWordRest d = true
  free : Keyword.ofText? name = none

/-- The tokens that a text can be cut into. -/
def Token.Lexable : Token → Prop
  | .int n => IsWord n
  | .ident name => IsName name
  | .keyword _ | .symbol _ => True

namespace Lexer

/-! ### Classes of characters -/

theorem isWordRest_of_isWordStart {c : Char} (start : isWordStart c = true) : isWordRest c = true := by
  simp only [isWordStart, isWordRest, Char.isAlphanum, Bool.or_eq_true] at start ⊢
  tauto

theorem isWordRest_of_isDigit {c : Char} (digit : c.isDigit = true) : isWordRest c = true := by
  simp [isWordRest, Char.isAlphanum, digit]

theorem isBlank_eq_false {c : Char} (word : isWordRest c = true) : isBlank c = false := by
  by_contra blank
  simp only [isBlank, Bool.not_eq_false, Bool.or_eq_true, beq_iff_eq] at blank
  rcases blank with ((rfl | rfl) | rfl) | rfl <;> cases word

theorem ne_slash {c : Char} (word : isWordRest c = true) : (c == '/') = false := by
  by_contra slash
  obtain rfl : c = '/' := by simpa using slash
  cases word

theorem isDigit_eq_false {c : Char} (start : isWordStart c = true) : c.isDigit = false := by
  by_contra digit
  delta isWordStart Char.isAlpha Char.isUpper Char.isLower at start
  simp only [Char.isDigit, Bool.not_eq_false, Bool.or_eq_true, Bool.and_eq_true, decide_eq_true_eq,
    ge_iff_le, UInt32.le_iff_toNat_le, beq_iff_eq] at start digit
  rcases start with (⟨low, high⟩ | ⟨low, high⟩) | rfl
  · simp at low high digit
    omega
  · simp at low high digit
    omega
  · simp at digit

/-! ### What is cut off -/

theorem next_lexable {c : Char} {cs : List Char} {t : Token}
    (found : (next c cs).item = some (.token t)) : t.Lexable := by
  cases t with
  | int n => exact next_inWords found
  | ident name =>
    unfold next at found
    split at found
    · cases found
    split at found
    · cases found
    split at found
    · unfold number at found
      dsimp only at found
      split at found <;> cases found
    split at found
    · next start =>
      unfold word at found
      dsimp only at found
      split at found
      · cases found
      · next free =>
        cases found
        exact ⟨⟨c, cs.takeWhile isWordRest, by simp, start, List.all_eq_true.mp List.all_takeWhile⟩, free⟩
    · split at found <;> cases found
  | keyword _ => trivial
  | symbol _ => trivial

theorem scan_lexable (owed offset : Nat) (cs : List Char) :
    ∀ l ∈ scan owed offset cs, ∀ t, l.item = .token t → t.Lexable := by
  induction cs generalizing owed offset with
  | nil => exact nofun
  | cons c cs ih =>
    unfold scan
    split
    · exact ih _ _
    · dsimp only
      split
      · exact ih _ _
      · next item found =>
        intro l member
        rcases List.mem_cons.mp member with rfl | later
        · rintro t rfl
          exact next_lexable found
        · exact ih _ _ l later

/-! ### Token by token -/

/-- The items that `cs` is cut into. -/
def items (cs : List Char) : List Lexeme.Item := (scan 0 0 cs).map (·.item)

theorem items_scan (owed offset : Nat) (cs : List Char) :
    (scan owed offset cs).map (·.item) = items (cs.drop owed) := by
  suffices same : ∀ (cs : List Char) (owed offset other : Nat),
      (scan owed offset cs).map (·.item) = (scan 0 other (cs.drop owed)).map (·.item) from
    same cs owed offset 0
  intro cs
  induction cs with
  | nil => intro owed offset other; cases owed <;> rfl
  | cons c cs ih =>
    intro owed offset other
    cases owed with
    | succ owed => exact ih owed _ other
    | zero =>
      rw [List.drop_zero]
      unfold scan
      dsimp only
      split
      · rw [ih _ (offset + c.utf8Size) 0, ih _ (other + c.utf8Size) 0]
      · rw [List.map_cons, List.map_cons, ih _ (offset + c.utf8Size) 0,
          ih _ (other + c.utf8Size) 0]

/-- Cutting off the first match. -/
theorem items_cons (c : Char) (cs : List Char) :
    items (c :: cs) =
      (next c cs).item.toList ++ items (cs.drop ((next c cs).covered.length - 1)) := by
  rw [items, scan]
  split
  · next none_ => rw [items_scan, none_, Option.toList_none, List.nil_append]
  · next item some_ => rw [List.map_cons, items_scan, some_, Option.toList_some, List.singleton_append]

theorem items_dropWhile_isBlank (cs : List Char) : items (cs.dropWhile isBlank) = items cs := by
  cases cs with
  | nil => rfl
  | cons c cs =>
    by_cases blank : isBlank c = true
    · have found : next c cs = ⟨c :: cs.takeWhile isBlank, none⟩ := by simp [next, blank]
      have rest : (cs.takeWhile isBlank ++ cs.dropWhile isBlank).drop (cs.takeWhile isBlank).length =
          cs.dropWhile isBlank := List.drop_left
      rw [List.takeWhile_append_dropWhile] at rest
      rw [List.dropWhile_cons_of_pos blank, items_cons, found]
      simp [rest]
    · rw [List.dropWhile_cons_of_neg blank]

/-- `cs` is cut into the tokens `ts` and nothing else. -/
def Spells (cs : List Char) (ts : List Token) : Prop := items cs = ts.map .token

namespace Spells

variable {rest : List Char} {ts : List Token}

theorem nil : Spells [] [] := rfl

theorem blank (spells : Spells rest ts) : Spells (' ' :: rest) ts := by
  have skipped := items_dropWhile_isBlank (' ' :: rest)
  rw [List.dropWhile_cons_of_pos rfl, items_dropWhile_isBlank] at skipped
  exact skipped.symm.trans spells

theorem cut {c : Char} {cs : List Char} {t : Token}
    (found : next c (cs ++ rest) = ⟨c :: cs, some (.token t)⟩) (spells : Spells rest ts) :
    Spells (c :: cs ++ rest) (t :: ts) := by
  have later : items rest = ts.map .token := spells
  show items (c :: (cs ++ rest)) = _
  rw [items_cons, found]
  simp [later]

end Spells

/-- The characters of a run are taken, and none behind it. -/
theorem takeWhile_run {p : Char → Bool} {run rest : List Char} (all : ∀ c ∈ run, p c = true)
    (stops : ∀ c ∈ rest.head?, p c = false) : (run ++ rest).takeWhile p = run := by
  rw [List.takeWhile_append_of_pos all]
  cases rest with
  | nil => simp
  | cons c rest => simp [stops c rfl]

/-- No word goes on with `cs`. -/
def EndsWord (cs : List Char) : Prop := ∀ c ∈ cs.head?, isWordRest c = false

/-- No symbol goes on with `cs`. -/
def EndsSymbol (cs : List Char) : Prop := ∀ c ∈ cs.head?, c ∉ ['=', '<', '>', '&']

/-- No token goes on with `cs`. -/
structure Ends (cs : List Char) : Prop where
  word : EndsWord cs
  symbol : EndsSymbol cs

/-- A blank or a mark that belongs to no longer token. -/
def isSeparator (c : Char) : Bool := [' ', '(', ')', '[', ']', ',', ';', ':'].contains c

theorem Ends.cons {c : Char} {cs : List Char} (separator : isSeparator c = true) : Ends (c :: cs) := by
  simp only [isSeparator, List.contains_iff_mem, List.mem_cons, List.not_mem_nil, or_false] at separator
  refine ⟨?_, ?_⟩
  · rintro d ⟨⟩
    rcases separator with rfl | rfl | rfl | rfl | rfl | rfl | rfl | rfl <;> rfl
  · rintro d ⟨⟩
    rcases separator with rfl | rfl | rfl | rfl | rfl | rfl | rfl | rfl <;> decide

theorem spells_number {n : Nat} {rest : List Char} {ts : List Token} (word : IsWord n)
    (ends : EndsWord rest) (spells : Spells rest ts) :
    Spells (Nat.toDigits 10 n ++ rest) (.int n :: ts) := by
  have value : digitsValue (Nat.toDigits 10 n) = n := Nat.ofDigitChars_ten_toDigits
  have digits := FreeName.isDigit_toDigits n
  have some_ : Nat.toDigits 10 n ≠ [] := Nat.toDigits_ne_nil
  generalize Nat.toDigits 10 n = run at value digits some_
  cases run with
  | nil => exact absurd rfl some_
  | cons c cs =>
    have digit := digits c List.mem_cons_self
    have others : (cs ++ rest).takeWhile Char.isDigit = cs := by
      refine takeWhile_run (fun d member => digits d (List.mem_cons_of_mem _ member)) fun d head => ?_
      by_contra isDigit
      have impossible := ends d head
      rw [isWordRest_of_isDigit (by simpa using isDigit)] at impossible
      cases impossible
    refine .cut ?_ spells
    have asWord := isWordRest_of_isDigit digit
    simp only [next, isBlank_eq_false asWord, ne_slash asWord, digit, others, number, value,
      Word.fits_iff.mpr word]
    rfl

theorem spells_word {name : String} {c : Char} {cs rest : List Char} {ts : List Token}
    (chars : name.toList = c :: cs) (start : isWordStart c = true)
    (others : ∀ d ∈ cs, isWordRest d = true) (ends : EndsWord rest) (spells : Spells rest ts) :
    Spells (name.toList ++ rest) (word name :: ts) := by
  have whole : String.ofList (c :: cs) = name := by rw [← chars, String.ofList_toList]
  rw [chars]
  refine .cut ?_ spells
  have asWord := isWordRest_of_isWordStart start
  simp only [next, isBlank_eq_false asWord, ne_slash asWord, isDigit_eq_false start, start,
    takeWhile_run others ends, whole]
  rfl

theorem spells_name {name : String} {rest : List Char} {ts : List Token} (valid : IsName name)
    (ends : EndsWord rest) (spells : Spells rest ts) :
    Spells (name.toList ++ rest) (.ident name :: ts) := by
  obtain ⟨c, cs, chars, start, others⟩ := valid.chars
  have cut := spells_word chars start others ends spells
  rwa [word, valid.free] at cut

theorem spells_keyword (k : Keyword) {rest : List Char} {ts : List Token} (ends : EndsWord rest)
    (spells : Spells rest ts) : Spells (k.text.toList ++ rest) (.keyword k :: ts) := by
  have known : word k.text = .keyword k := by cases k <;> rfl
  have chars : ∃ c cs, k.text.toList = c :: cs ∧ isWordStart c = true ∧
      ∀ d ∈ cs, isWordRest d = true := by
    cases k <;> exact ⟨_, _, rfl, rfl, List.all_eq_true.mp rfl⟩
  obtain ⟨c, cs, chars, start, others⟩ := chars
  rw [← known]
  exact spells_word chars start others ends spells

/-- Symbols that are no beginning of a longer one. -/
def isSolo : Symbol → Bool
  | .lParen | .rParen | .lBracket | .rBracket | .comma | .semicolon => true
  | _ => false

theorem longest?_of_isSolo {s : Symbol} (solo : isSolo s = true) (rest : List Char) :
    Symbol.longest? (s.chars ++ rest) = some s := by
  cases s <;> cases solo <;> rfl

theorem longest?_of_endsSymbol (s : Symbol) {rest : List Char} (ends : EndsSymbol rest) :
    Symbol.longest? (s.chars ++ rest) = some s := by
  cases rest with
  | nil => cases s <;> rfl
  | cons c rest =>
    have other := ends c rfl
    simp only [List.mem_cons, List.not_mem_nil, or_false, not_or, eq_comm (a := c)] at other
    obtain ⟨notEq, notLt, notGt, notAmp⟩ := other
    cases s <;> first
      | rfl
      | simp [Symbol.longest?, Symbol.all, Symbol.chars, notEq, notLt, notGt, notAmp]

theorem spells_of_longest {s : Symbol} {rest : List Char} {ts : List Token}
    (longest : Symbol.longest? (s.chars ++ rest) = some s) (spells : Spells rest ts) :
    Spells (s.chars ++ rest) (.symbol s :: ts) := by
  have chars : ∃ c cs, s.chars = c :: cs ∧ isBlank c = false ∧ (c == '/') = false ∧
      c.isDigit = false ∧ isWordStart c = false := by
    cases s <;> exact ⟨_, _, rfl, by decide, by decide, by decide, by decide⟩
  obtain ⟨c, cs, chars, notBlank, notSlash, notDigit, notWord⟩ := chars
  rw [chars] at longest ⊢
  refine .cut ?_ spells
  rw [List.cons_append] at longest
  simp only [next, notBlank, notSlash, notDigit, notWord, longest, chars]
  rfl

theorem spells_symbol (s : Symbol) {rest : List Char} {ts : List Token} (ends : EndsSymbol rest)
    (spells : Spells rest ts) : Spells (s.chars ++ rest) (.symbol s :: ts) :=
  spells_of_longest (longest?_of_endsSymbol s ends) spells

theorem spells_solo {s : Symbol} {rest : List Char} {ts : List Token} (solo : isSolo s = true)
    (spells : Spells rest ts) : Spells (s.chars ++ rest) (.symbol s :: ts) :=
  spells_of_longest (longest?_of_isSolo solo rest) spells

end Lexer

end BankedLoops
