import Mathlib
import Inkwell.Token.Lexer
import Inkwell.Proofs.Text.Runes
import Inkwell.Proofs.Value.Keys

/-!
# The tokens of what stands before a line break

A source is cut at a line break. If a string or a comment is open there, the lexer says so for the
part in front of it. Otherwise the tokens of this part are those that the whole source begins with,
and then its end (`Token.scan_newline`).

Both scans go through the same characters up to the cut, so everything here compares two cursors at the
same position, one with the line break and what is behind it still to come and one without.
-/

namespace Inkwell

open List

variable {zs : List Char} {x : Char}

/-! ## Characters -/

namespace Text

/-- The characters of a text that is cut at a line feed. -/
theorem chars_newline (s t : Text) : (s ++ "\n" ++ t).chars = s.chars ++ '\n' :: t.chars := by
  have hbytes : s ++ "\n" ++ t = ofBytes (s.bytes ++ 10 :: t.bytes) := by
    apply ext_bytes
    rw [bytes_append, bytes_append, append_assoc, bytes_ofBytes]
    rfl
  rw [hbytes, chars_ofBytes_ascii (by decide), ofBytes_bytes, ofBytes_bytes]
  rfl

end Text

namespace Lexer

variable {p : Char → Bool} {xs : List Char}

/-! ## Cursors -/

theorem takeWhile_newline (hp : xs.dropWhile p ≠ [] ∨ p '\n' = false) (ds : List Char) :
    (xs ++ '\n' :: ds).takeWhile p = xs.takeWhile p := by
  rw [takeWhile_append]
  split
  · rename_i hall
    have hsame := (List.takeWhile_prefix p).eq_of_length hall
    have hstop := hp.resolve_left fun hne => hne (by simpa [dropWhile_eq_nil_iff] using hsame)
    rw [takeWhile_cons_of_neg (by simp [hstop]), append_nil, hsame]
  · rfl

theorem dropWhile_newline (hp : xs.dropWhile p ≠ [] ∨ p '\n' = false) (ds : List Char) :
    (xs ++ '\n' :: ds).dropWhile p = xs.dropWhile p ++ '\n' :: ds := by
  rw [dropWhile_append]
  split
  · rename_i hempty
    have hempty := isEmpty_iff.1 hempty
    rw [hempty, dropWhile_cons_of_neg (by simp [hp.resolve_left fun hne => hne hempty]), nil_append]
  · rfl

variable {ds : List Char} {whole part : Cursor}

/-- A cursor of the whole source and one of what stands before the line break, at the same place. -/
structure Cut (ds : List Char) (whole part : Cursor) : Prop where
  rest : whole.rest = part.rest ++ '\n' :: ds
  position : whole.position = part.position

theorem Cut.skip (h : Cut ds whole part) {n : Nat} (hn : n ≤ part.rest.length) :
    Cut ds (whole.skip n) (part.skip n) where
  rest := by
    unfold Cursor.skip
    rw [h.rest]
    exact drop_append_of_le_length hn
  position := by
    unfold Cursor.skip
    rw [h.rest, h.position]
    exact congrArg part.position.past (take_append_of_le_length hn)

/-- Characters are skipped alike as long as there is one in front of the line break, or the line break
itself, that is not skipped. -/
theorem Cut.skipWhile (h : Cut ds whole part) (hp : part.rest.dropWhile p ≠ [] ∨ p '\n' = false) :
    Cut ds (whole.skipWhile p) (part.skipWhile p) where
  rest := by
    unfold Cursor.skipWhile
    rw [h.rest]
    exact dropWhile_newline hp ds
  position := by
    unfold Cursor.skipWhile
    rw [h.rest, h.position]
    exact congrArg part.position.past (takeWhile_newline hp ds)

/-! ## Gaps -/

section Gaps

variable {lineBreaks : Bool} {c : Cursor}

/-- Whether a character is skipped between two tokens. -/
abbrev isBlank (lineBreaks : Bool) : Char → Bool := fun x => isSpace x || (lineBreaks && x = '\n')

theorem skipGap_of_head (rounds : Nat)
    (h : ∀ x ∈ (c.skipWhile (isBlank lineBreaks)).rest.head?, x ≠ backquote) :
    skipGap lineBreaks (rounds + 1) c = (c.skipWhile (isBlank lineBreaks), none) := by
  unfold skipGap
  dsimp only
  split
  case h_3 => rfl
  all_goals
    rename_i hrest
    rw [hrest] at h
    rw [if_neg (h _ rfl)]

theorem skipGap_of_last (rounds : Nat) (h : (c.skipWhile (isBlank lineBreaks)).rest = [backquote]) :
    skipGap lineBreaks (rounds + 1) c =
      ((c.skipWhile (isBlank lineBreaks)).skip 1, some (c.skipWhile (isBlank lineBreaks)).position) := by
  rw [skipGap]
  simp only [h, if_true]

theorem skipGap_of_line (rounds : Nat)
    (h : (c.skipWhile (isBlank lineBreaks)).rest = backquote :: backquote :: zs) :
    skipGap lineBreaks (rounds + 1) c =
      skipGap lineBreaks rounds ((c.skipWhile (isBlank lineBreaks)).skipWhile (· ≠ '\n')) := by
  rw [skipGap]
  simp only [h, if_true]

theorem skipGap_of_block (rounds : Nat) {y : Char} (hy : y ≠ backquote)
    (h : (c.skipWhile (isBlank lineBreaks)).rest = backquote :: y :: zs) :
    skipGap lineBreaks (rounds + 1) c =
      let inner := ((c.skipWhile (isBlank lineBreaks)).skip 1).skipWhile (· ≠ backquote)
      if inner.rest.isEmpty then (inner, some (c.skipWhile (isBlank lineBreaks)).position)
      else skipGap lineBreaks rounds (inner.skip 1) := by
  rw [skipGap]
  simp only [h, if_true, if_neg hy]

end Gaps

/-- Behind a comment that ends with its line. -/
theorem Cut.lineComment (h : Cut ds whole part) (hrest : part.rest = backquote :: backquote :: zs) :
    Cut ds (whole.skipWhile (· ≠ '\n')) (part.skipWhile (· ≠ '\n')) ∧
      (part.skipWhile (· ≠ '\n')).rest.length ≤ zs.length := by
  refine ⟨h.skipWhile (.inr (by decide)), ?_⟩
  show (part.rest.dropWhile _).length ≤ _
  rw [hrest, dropWhile_cons_of_pos (by decide), dropWhile_cons_of_pos (by decide)]
  exact (dropWhile_sublist _).length_le

/-- Behind a comment that ends with a backquote. -/
theorem Cut.blockComment (h : Cut ds whole part) {y : Char}
    (hrest : part.rest = backquote :: y :: zs)
    (hclosed : ((part.skip 1).skipWhile (· ≠ backquote)).rest ≠ []) :
    ((whole.skip 1).skipWhile (· ≠ backquote)).rest ≠ [] ∧
      Cut ds (((whole.skip 1).skipWhile (· ≠ backquote)).skip 1)
        (((part.skip 1).skipWhile (· ≠ backquote)).skip 1) ∧
      (((part.skip 1).skipWhile (· ≠ backquote)).skip 1).rest.length ≤ zs.length := by
  have hinner := (h.skip (n := 1) (by simp [hrest])).skipWhile (p := (· ≠ backquote)) (.inl hclosed)
  have hlength : ((part.skip 1).skipWhile (· ≠ backquote)).rest.length ≤ zs.length + 1 := by
    refine (dropWhile_sublist _).length_le.trans ?_
    show (part.rest.drop 1).length ≤ _
    rw [hrest]
    exact Nat.le_refl _
  refine ⟨?_, hinner.skip (length_pos_of_ne_nil hclosed), ?_⟩
  · rw [hinner.rest]
    simp
  · show (List.drop 1 _).length ≤ _
    rw [length_drop]
    omega

/-- Between two tokens, the part ends in a comment, or in the gap, or both cursors go to the same
place. -/
theorem skipGap_cut (lineBreaks : Bool) (rounds : Nat) : ∀ (rounds' : Nat) {whole part : Cursor},
    Cut ds whole part → part.rest.length < rounds → part.rest.length < rounds' →
    (∃ position, (skipGap lineBreaks rounds part).2 = some position) ∨
    ∃ start, skipGap lineBreaks rounds part = (start, none) ∧ start.rest.length ≤ part.rest.length ∧
      (start.rest = [] ∨
        ∃ start', skipGap lineBreaks rounds' whole = (start', none) ∧ Cut ds start' start) := by
  induction rounds with
  | zero => exact fun _ _ _ _ h => absurd h (Nat.not_lt_zero _)
  | succ rounds ih =>
    intro rounds' whole part h hrounds hrounds'
    obtain ⟨rounds', rfl⟩ : ∃ n, rounds' = n + 1 := ⟨rounds' - 1, by omega⟩
    have hshort : (part.skipWhile (isBlank lineBreaks)).rest.length ≤ part.rest.length :=
      List.Sublist.length_le (List.dropWhile_sublist _)
    -- Behind a comment there is less left, so the rounds that remain are enough.
    have hagain : ∀ {whole' part' : Cursor}, Cut ds whole' part' →
        part'.rest.length + 1 < part.rest.length →
        (∃ position, (skipGap lineBreaks rounds part').2 = some position) ∨
        ∃ start, skipGap lineBreaks rounds part' = (start, none) ∧
          start.rest.length ≤ part.rest.length ∧ (start.rest = [] ∨
            ∃ start', skipGap lineBreaks rounds' whole' = (start', none) ∧ Cut ds start' start) := by
      intro whole' part' hcut hless
      refine (ih rounds' hcut (by omega) (by omega)).imp_right ?_
      rintro ⟨start, hstart, hlength, hends⟩
      exact ⟨start, hstart, by omega, hends⟩
    cases hrest : (part.skipWhile (isBlank lineBreaks)).rest with
    | nil => exact .inr ⟨_, skipGap_of_head rounds (by simp [hrest]), hshort, .inl hrest⟩
    | cons x zs =>
      have hcut := h.skipWhile (p := isBlank lineBreaks) (.inl (by
        show (part.skipWhile _).rest ≠ []
        simp [hrest]))
      by_cases hx : x = backquote
      · subst hx
        cases zs with
        | nil =>
          rw [skipGap_of_last rounds hrest]
          exact .inl ⟨_, rfl⟩
        | cons y zs =>
          have hrest' := hcut.rest
          rw [hrest] at hrest' hshort
          simp only [List.length_cons] at hshort
          by_cases hy : y = backquote
          · subst hy
            obtain ⟨hnext, hless⟩ := hcut.lineComment hrest
            rw [skipGap_of_line rounds hrest, skipGap_of_line rounds' hrest']
            exact hagain hnext (by omega)
          · rw [skipGap_of_block rounds hy hrest, skipGap_of_block rounds' hy hrest']
            dsimp only
            split
            · exact .inl ⟨_, rfl⟩
            · rename_i hclosed
              rw [List.isEmpty_iff] at hclosed
              obtain ⟨hclosed', hnext, hless⟩ := hcut.blockComment hrest hclosed
              rw [if_neg (by simpa using hclosed')]
              exact hagain hnext (by omega)
      · refine .inr ⟨_, skipGap_of_head rounds (by simpa [hrest] using hx), hshort,
          .inr ⟨_, skipGap_of_head rounds' ?_, hcut⟩⟩
        rw [hcut.rest, hrest]
        simpa using hx

/-! ## Tokens -/

/-- What follows the first character does not decide whether there is a symbol. -/
theorem symbol?_eq_none_of_head {rest : List Char} (h : symbol? (x :: rest) = none)
    (rest' : List Char) : symbol? (x :: rest') = none := by
  have hother : ∀ rest, symbol? (':' :: rest) ≠ none ∧ symbol? ('-' :: rest) ≠ none ∧
      symbol? ('=' :: rest) ≠ none := by
    intro rest
    refine ⟨?_, ?_, ?_⟩ <;> unfold symbol? <;> split <;> simp_all
  generalize hxs : x :: rest' = xs
  fun_cases symbol? xs
  case case26 => rfl
  all_goals obtain ⟨rfl, -⟩ := List.cons.inj hxs
  case case2 | case3 | case4 => exact absurd h (hother rest).1
  case case5 | case6 => exact absurd h (hother rest).2.1
  case case7 | case8 => exact absurd h (hother rest).2.2
  all_goals exact absurd h (by simp [symbol?])

theorem symbol?_newline (hxs : xs ≠ []) (ds : List Char) :
    symbol? (xs ++ '\n' :: ds) = symbol? xs := by
  have hnext : ∀ {rest : List Char} {y : Char}, y ≠ '\n' → (∀ tail, rest = y :: tail → False) →
      ∀ tail, rest ++ '\n' :: ds = y :: tail → False := by
    intro rest y hy h tail htail
    cases rest with
    | nil => exact hy (List.cons.inj htail).1.symm
    | cons x rest => exact h rest (by rw [(List.cons.inj htail).1])
  by_cases hnone : symbol? xs = none
  · obtain ⟨x, rest, rfl⟩ := exists_cons_of_ne_nil hxs
    rw [hnone]
    exact symbol?_eq_none_of_head hnone _
  · revert hnone
    fun_cases symbol? xs
    case case26 => exact fun h => absurd rfl h
    all_goals intro _
    case case4 rest h h' _ => exact symbol?.eq_4 _ (hnext (by decide) h) (hnext (by decide) h')
    case case6 rest h _ => exact symbol?.eq_6 _ (hnext (by decide) h)
    case case8 rest h _ => exact symbol?.eq_8 _ (hnext (by decide) h)
    all_goals rfl

theorem length_symbol? {kind : Kind} {n : Nat} (h : symbol? xs = some (kind, n)) :
    0 < n ∧ n ≤ xs.length ∧ kind ≠ .finish := by
  unfold symbol? at h
  split at h <;> cases h <;> simp

/-- What stands between the quotes of a string, and the characters that it means. -/
inductive Means : List Char → List Char → Prop
  | nil : Means [] []
  | plain {x : Char} {xs vs : List Char} : x ≠ '\'' → x ≠ '\\' → Means xs vs →
    Means (x :: xs) (x :: vs)
  | escaped (x : Char) {xs vs : List Char} : Means xs vs → Means ('\\' :: x :: xs) (unescape x :: vs)

theorem Means.stringBody_eq {body vs : List Char} (h : Means body vs) (value : List Char)
    (length : Nat) (rest : List Char) :
    stringBody value length (body ++ '\'' :: rest) =
      ⟨value.reverse ++ vs, length + body.length + 1, true⟩ := by
  induction h generalizing value length with
  | nil => simp [stringBody]
  | plain hquote hescape _ ih =>
    rw [cons_append, stringBody.eq_5 _ _ _ _ hquote (fun h _ => hescape h) (fun _ _ h _ => hescape h),
      ih]
    simp only [reverse_cons, append_assoc, singleton_append, length_cons]
    congr 1
    omega
  | escaped x _ ih =>
    simp only [cons_append, stringBody, ih, reverse_cons, append_assoc, nil_append, length_cons]
    congr 1
    omega

/-- A string that is closed goes up to the first quote that is not behind a backslash. -/
theorem exists_means {value : List Char} {length : Nat}
    (h : (stringBody value length xs).closed = true) :
    ∃ body vs rest, Means body vs ∧ xs = body ++ '\'' :: rest := by
  fun_induction stringBody value length xs with
  | case1 => cases h
  | case2 value length rest => exact ⟨[], [], rest, .nil, rfl⟩
  | case3 => cases h
  | case4 value length c _ ih =>
    obtain ⟨body, vs, rest, hmeans, rfl⟩ := ih h
    exact ⟨_, _, rest, hmeans.escaped c, rfl⟩
  | case5 value length c xs hquote hlast hescape ih =>
    have hplain : c ≠ '\\' := by
      intro hc
      cases xs with
      | nil => exact hlast hc rfl
      | cons d xs => exact hescape d xs hc rfl
    obtain ⟨body, vs, rest, hmeans, rfl⟩ := ih h
    exact ⟨_, _, rest, .plain hquote hplain hmeans, rfl⟩

theorem stringBody_append {value : List Char} {length : Nat} (ys : List Char)
    (h : (stringBody value length xs).closed = true) :
    stringBody value length (xs ++ ys) = stringBody value length xs ∧
      (stringBody value length xs).length ≤ length + xs.length := by
  obtain ⟨body, vs, rest, hmeans, rfl⟩ := exists_means h
  rw [append_assoc, cons_append, hmeans.stringBody_eq, hmeans.stringBody_eq]
  refine ⟨rfl, ?_⟩
  simp only [length_append, length_cons]
  omega

theorem numberDigits_newline (fraction : Bool) (xs ds : List Char) :
    numberDigits fraction (xs ++ '\n' :: ds) = numberDigits fraction xs := by
  have hstop : isDigit '\n' = false := by decide
  unfold numberDigits
  rw [takeWhile_newline (.inr hstop), dropWhile_newline (.inr hstop)]
  cases xs.dropWhile isDigit with
  | nil => rfl
  | cons y ys =>
    by_cases hy : y = '.'
    · subst hy
      simp only [cons_append, takeWhile_newline (.inr hstop)]
    · simp [hy]

/-- The digits of a number literal, with the point between them if there are some behind it. -/
def literalDigits (fraction : Bool) (xs : List Char) : List Char :=
  if (numberDigits fraction xs).2.isEmpty then (numberDigits fraction xs).1
  else (numberDigits fraction xs).1 ++ '.' :: (numberDigits fraction xs).2

theorem literalDigits_isPrefix (fraction : Bool) (xs : List Char) : literalDigits fraction xs <+: xs := by
  have hsplit := takeWhile_append_dropWhile (p := isDigit) (l := xs)
  unfold literalDigits numberDigits
  dsimp only
  generalize xs.dropWhile isDigit = rest at hsplit ⊢
  generalize xs.takeWhile isDigit = digits at hsplit ⊢
  subst hsplit
  split
  · rename_i behind
    have hplaces : (if fraction then behind.takeWhile isDigit else []) <+: behind := by
      split
      · exact takeWhile_prefix _
      · exact nil_prefix
    generalize (if fraction then behind.takeWhile isDigit else []) = places at hplaces ⊢
    dsimp only
    split
    · exact prefix_append _ _
    · exact (prefix_append_right_inj _).2 (cons_prefix_cons.2 ⟨rfl, hplaces⟩)
  · exact prefix_append _ _

theorem length_literalDigits (fraction : Bool) (hx : isDigit x = true) (xs : List Char) :
    0 < (literalDigits fraction (x :: xs)).length := by
  have hwhole : (numberDigits fraction (x :: xs)).1 = x :: xs.takeWhile isDigit := by
    unfold numberDigits
    dsimp only
    split <;> exact takeWhile_cons_of_pos hx
  unfold literalDigits
  rw [hwhole]
  split <;> exact Nat.succ_pos _

/-! ### The forms of tokens -/

section Forms

variable {c : Cursor} {rest : List Char}

theorem tokenAt_nil (last : Kind) (h : c.rest = []) :
    tokenAt last c = ⟨{ kind := .finish, position := c.position }, c, []⟩ := by
  unfold tokenAt
  simp only [h]

theorem tokenAt_newline (last : Kind) (h : c.rest = '\n' :: rest) :
    tokenAt last c =
      ⟨{ kind := .separator, lexeme := "\n", position := c.position }, c.skip 1, []⟩ := by
  unfold tokenAt
  simp only [h]

theorem tokenAt_string (last : Kind) (h : c.rest = '\'' :: rest) :
    tokenAt last c =
      ⟨{ kind := .string
         lexeme := "'" ++ Text.ofChars (stringBody [] 0 rest).value ++ "'"
         literal := some (.text (Text.ofChars (stringBody [] 0 rest).value))
         position := c.position },
        c.skip ((stringBody [] 0 rest).length + 1),
        if (stringBody [] 0 rest).closed then []
        else [{ problem := .unterminatedString, position := c.position }]⟩ := by
  unfold tokenAt
  simp only [h]

theorem tokenAt_other (last : Kind) (h : c.rest = x :: rest) (hbreak : x ≠ '\n')
    (hquote : x ≠ '\'') :
    tokenAt last c =
      match symbol? (x :: rest) with
      | some (kind, n) =>
        ⟨{ kind
           lexeme := Text.ofChars ((x :: rest).take n)
           literal := some (.text (Text.ofChars ((x :: rest).take n)))
           position := c.position }, c.skip n, []⟩
      | none =>
        if isDigit x then
          let digits := numberDigits (last ≠ .dot) (x :: rest)
          let lexeme := Text.ofChars (literalDigits (last ≠ .dot) (x :: rest))
          let value := Number.ofDecimal false (digitsValue (digits.1 ++ digits.2)) (-digits.2.length)
          ⟨{ kind := .number, lexeme, literal := some (.number value), position := c.position },
            c.skip (literalDigits (last ≠ .dot) (x :: rest)).length,
            if value.isInfinite then
              [{ problem := .malformedNumber lexeme, position := c.position }] else []⟩
        else if startsName x then
          let lexeme := Text.ofChars ((x :: rest).takeWhile continuesName)
          ⟨{ kind := nameKind lexeme, lexeme, literal := some (.text lexeme), position := c.position },
            c.skip ((x :: rest).takeWhile continuesName).length, []⟩
        else
          ⟨{ kind := .illegal, lexeme := Text.ofChar x, position := c.position }, c.skip 1,
            [{ problem := .unexpectedCharacter x, position := c.position }]⟩ := by
  unfold tokenAt
  simp only [h]
  rfl

end Forms

/-! ### Tokens in front of the cut -/

theorem kind_nameKind (name : Text) :
    nameKind name ≠ .finish ∧ nameKind name ≠ .string ∧ nameKind name ≠ .separator := by
  unfold nameKind
  split
  · decide
  split
  · decide
  split <;> decide

/-- A token has been read that is the same for both cursors, which are at the same place behind it. -/
structure SameStep (ds : List Char) (whole part : Step) (start : Cursor) : Prop where
  token : whole.token = part.token
  problems : whole.problems = part.problems
  rest : Cut ds whole.rest part.rest
  shorter : part.rest.rest.length < start.rest.length
  more : part.token.kind ≠ .finish

/-- Both cursors are at the same token, unless it is a string that is open at the cut. -/
theorem tokenAt_cut (last : Kind) (h : Cut ds whole part) (hne : part.rest ≠ []) :
    (∃ d ∈ (tokenAt last part).problems, d.problem.code = "L002") ∨
      SameStep ds (tokenAt last whole) (tokenAt last part) part := by
  obtain ⟨x, rest, hrest⟩ := exists_cons_of_ne_nil hne
  have hwhole : whole.rest = x :: (rest ++ '\n' :: ds) := by rw [h.rest, hrest]; rfl
  have hskip : ∀ {n : Nat}, 0 < n → n ≤ (x :: rest).length →
      Cut ds (whole.skip n) (part.skip n) ∧ (part.skip n).rest.length < part.rest.length := by
    intro n hpos hn
    rw [← hrest] at hn
    refine ⟨h.skip hn, ?_⟩
    show (part.rest.drop n).length < _
    rw [length_drop]
    omega
  by_cases hbreak : x = '\n'
  · subst hbreak
    rw [tokenAt_newline last hwhole, tokenAt_newline last hrest, h.position]
    obtain ⟨hcut, hless⟩ := hskip (n := 1) (by decide) (by simp)
    exact .inr ⟨rfl, rfl, hcut, hless, by simp⟩
  by_cases hquote : x = '\''
  · subst hquote
    rw [tokenAt_string last hwhole, tokenAt_string last hrest]
    by_cases hclosed : (stringBody [] 0 rest).closed = true
    · obtain ⟨hsame, hlength⟩ := stringBody_append ('\n' :: ds) hclosed
      rw [hsame, h.position]
      obtain ⟨hcut, hless⟩ := hskip (n := (stringBody [] 0 rest).length + 1) (Nat.succ_pos _)
        (by rw [length_cons]; omega)
      exact .inr ⟨rfl, rfl, hcut, hless, by simp⟩
    · rw [if_neg hclosed]
      exact .inl ⟨_, mem_singleton_self _, rfl⟩
  have hsymbols := symbol?_newline (cons_ne_nil x rest) ds
  rw [cons_append] at hsymbols
  rw [tokenAt_other last hwhole hbreak hquote, tokenAt_other last hrest hbreak hquote, hsymbols,
    h.position]
  right
  cases hsymbol : symbol? (x :: rest) with
  | some found =>
    obtain ⟨kind, n⟩ := found
    obtain ⟨hpos, hn, hkind⟩ := length_symbol? hsymbol
    obtain ⟨hcut, hless⟩ := hskip hpos hn
    have htake : (x :: (rest ++ '\n' :: ds)).take n = (x :: rest).take n :=
      @List.take_append_of_le_length _ (x :: rest) _ n hn
    dsimp only
    rw [htake]
    exact ⟨rfl, rfl, hcut, hless, hkind⟩
  | none =>
    dsimp only
    split
    · rename_i hdigit
      have hdigits : numberDigits (last ≠ .dot) (x :: (rest ++ '\n' :: ds)) =
          numberDigits (last ≠ .dot) (x :: rest) := numberDigits_newline _ (x :: rest) ds
      have hliteral : literalDigits (last ≠ .dot) (x :: (rest ++ '\n' :: ds)) =
          literalDigits (last ≠ .dot) (x :: rest) := by
        unfold literalDigits
        rw [hdigits]
      obtain ⟨hcut, hless⟩ := hskip (length_literalDigits (last ≠ .dot) hdigit rest)
        (literalDigits_isPrefix (last ≠ .dot) (x :: rest)).length_le
      rw [hdigits, hliteral]
      exact ⟨rfl, rfl, hcut, hless, by simp⟩
    split
    · rename_i hstart
      have hname : (x :: (rest ++ '\n' :: ds)).takeWhile continuesName =
          (x :: rest).takeWhile continuesName := @takeWhile_newline _ (x :: rest) (.inr (by decide)) ds
      have hpos : 0 < ((x :: rest).takeWhile continuesName).length := by
        rw [takeWhile_cons_of_pos (by simp [continuesName, hstart])]
        exact Nat.succ_pos _
      obtain ⟨hcut, hless⟩ := hskip hpos (takeWhile_sublist _).length_le
      rw [hname]
      exact ⟨rfl, rfl, hcut, hless, (kind_nameKind _).1⟩
    · obtain ⟨hcut, hless⟩ := hskip (n := 1) (by decide) (by simp)
      exact ⟨rfl, rfl, hcut, hless, by simp⟩

/-- The next token of the part is a token of the whole source too, unless a string or a comment is open
in the part or it comes to its end. -/
theorem next_cut (last : Kind) (rounds rounds' : Nat) (h : Cut ds whole part)
    (hrounds : part.rest.length < rounds) (hrounds' : part.rest.length < rounds') :
    (∃ d ∈ (next last rounds part).problems, d.problem.code = "L002") ∨
    ((next last rounds part).token.kind = .finish ∧ (next last rounds part).problems = []) ∨
      SameStep ds (next last rounds' whole) (next last rounds part) part := by
  unfold next
  rcases skipGap_cut (!last.endsExpression) rounds rounds' h hrounds hrounds' with
    ⟨position, hopen⟩ | ⟨start, hstart, hshort, hempty | ⟨start', hstart', hcut⟩⟩
  · left
    dsimp only
    rw [hopen]
    exact ⟨_, mem_cons_self, rfl⟩
  · right; left
    rw [hstart]
    dsimp only
    rw [tokenAt_nil last hempty]
    exact ⟨rfl, rfl⟩
  · rw [hstart, hstart']
    dsimp only
    by_cases hne : start.rest = []
    · right; left
      rw [tokenAt_nil last hne]
      exact ⟨rfl, rfl⟩
    · refine (tokenAt_cut last hcut hne).imp_right fun hsame => .inr ?_
      exact { hsame with shorter := hsame.shorter.trans_le hshort }

/-- The tokens found so far, latest first, with one more. -/
def addToken (tokens : List Token) (t : Token) : List Token :=
  if t.kind = .separator && tokens.head?.any (·.kind = .separator) then tokens else t :: tokens

theorem tokensFrom_of_finish {tokens : List Token} {problems : List Diagnostic} {last : Kind}
    {rounds : Nat} {c : Cursor} (h : (next last (rounds + 1) c).token.kind = .finish) :
    tokensFrom tokens problems last (rounds + 1) c =
      ⟨tokens.reverse ++ [(next last (rounds + 1) c).token],
        problems.reverse ++ (next last (rounds + 1) c).problems⟩ := by
  unfold tokensFrom
  dsimp only
  rw [if_pos h, h]
  simp

theorem tokensFrom_of_ne {tokens : List Token} {problems : List Diagnostic} {last : Kind}
    {rounds : Nat} {c : Cursor} (h : (next last (rounds + 1) c).token.kind ≠ .finish) :
    tokensFrom tokens problems last (rounds + 1) c =
      tokensFrom (addToken tokens (next last (rounds + 1) c).token)
        ((next last (rounds + 1) c).problems.reverse ++ problems)
        (next last (rounds + 1) c).token.kind rounds (next last (rounds + 1) c).rest := by
  conv_lhs => unfold tokensFrom
  dsimp only
  rw [if_neg h]
  rfl

theorem reverse_prefix_addToken (tokens : List Token) (t : Token) :
    tokens.reverse <+: (addToken tokens t).reverse := by
  unfold addToken
  split
  · exact prefix_rfl
  · simp

/-- Tokens and problems are added to those that have been found. -/
theorem tokensFrom_agree (rounds : Nat) (tokens : List Token) (problems : List Diagnostic)
    (last : Kind) (c : Cursor) :
    tokens.reverse <+: (tokensFrom tokens problems last rounds c).tokens ∧
      problems.reverse <+: (tokensFrom tokens problems last rounds c).problems := by
  induction rounds generalizing tokens problems last c with
  | zero => exact ⟨prefix_rfl, prefix_rfl⟩
  | succ rounds ih =>
    by_cases h : (next last (rounds + 1) c).token.kind = .finish
    · rw [tokensFrom_of_finish h]
      exact ⟨prefix_append _ _, prefix_append _ _⟩
    · rw [tokensFrom_of_ne h]
      obtain ⟨htokens, hproblems⟩ := ih (addToken tokens (next last (rounds + 1) c).token)
        ((next last (rounds + 1) c).problems.reverse ++ problems)
        (next last (rounds + 1) c).token.kind (next last (rounds + 1) c).rest
      rw [reverse_append, reverse_reverse] at hproblems
      exact ⟨(reverse_prefix_addToken _ _).trans htokens, (prefix_append _ _).trans hproblems⟩

/-- The tokens of the part are those of the whole source up to its end, unless a string or a comment is
open in it. -/
theorem tokensFrom_cut (rounds : Nat) : ∀ {rounds' : Nat} {tokens : List Token}
    {problems : List Diagnostic} {last : Kind} {whole part : Cursor},
    Cut ds whole part → part.rest.length < rounds → whole.rest.length < rounds' →
    (∃ d ∈ (tokensFrom tokens problems last rounds part).problems, d.problem.code = "L002") ∨
    ∃ taken finish, finish.kind = .finish ∧
      (tokensFrom tokens problems last rounds part).tokens = taken ++ [finish] ∧
      taken <+: (tokensFrom tokens problems last rounds' whole).tokens ∧
      (tokensFrom tokens problems last rounds part).problems <+:
        (tokensFrom tokens problems last rounds' whole).problems := by
  induction rounds with
  | zero => exact fun _ h => absurd h (Nat.not_lt_zero _)
  | succ rounds ih =>
    intro rounds' tokens problems last whole part hcut hrounds hrounds'
    obtain ⟨rounds', rfl⟩ : ∃ n, rounds' = n + 1 := ⟨rounds' - 1, by omega⟩
    have hlength := congrArg List.length hcut.rest
    rw [length_append, length_cons] at hlength
    rcases next_cut last (rounds + 1) (rounds' + 1) hcut hrounds (by omega) with
      ⟨d, hd, hcode⟩ | ⟨hfinish, hnone⟩ | hsame
    · refine .inl ⟨d, ?_, hcode⟩
      by_cases h : (next last (rounds + 1) part).token.kind = .finish
      · rw [tokensFrom_of_finish h]
        exact mem_append_right _ hd
      · rw [tokensFrom_of_ne h]
        refine (tokensFrom_agree rounds _ _ _ _).2.subset ?_
        rw [reverse_append, reverse_reverse]
        exact mem_append_right _ hd
    · obtain ⟨htokens, hproblems⟩ := tokensFrom_agree (rounds' + 1) tokens problems last whole
      rw [tokensFrom_of_finish hfinish, hnone, append_nil]
      exact .inr ⟨tokens.reverse, _, hfinish, rfl, htokens, hproblems⟩
    · rw [tokensFrom_of_ne hsame.more, tokensFrom_of_ne (hsame.token ▸ hsame.more), hsame.token,
        hsame.problems]
      have hless := hsame.shorter
      have hless' := congrArg List.length hsame.rest.rest
      rw [length_append, length_cons] at hless'
      exact ih hsame.rest (by omega) (by omega)

end Lexer

/-- The tokens of what stands before a line break are those that the whole source begins with, unless a
string or a comment is open in it; then the lexer says so. -/
theorem Token.scan_newline (s t : Text) :
    (∃ d ∈ (Token.scan s).problems, d.problem.code = "L002") ∨
    Token.scan (s ++ "\n" ++ t) = Token.scan s ∨
    ∃ taken finish, finish.kind = .finish ∧
      (Token.scan s).tokens = taken ++ [finish] ∧ taken <+: (Token.scan (s ++ "\n" ++ t)).tokens ∧
      (Token.scan s).problems <+: (Token.scan (s ++ "\n" ++ t)).problems := by
  unfold Token.scan
  dsimp only
  rw [Text.chars_newline]
  by_cases hnul : '\x00' ∈ s.chars
  · right; left
    have hsame : (s.chars ++ '\n' :: t.chars).takeWhile (fun c => decide (c ≠ '\x00')) =
        s.chars.takeWhile fun c => decide (c ≠ '\x00') := by
      rw [takeWhile_append, if_neg]
      intro hall
      rw [← (List.takeWhile_prefix _).eq_of_length hall] at hnul
      exact absurd (mem_takeWhile_imp hnul) (by decide)
    rw [hsame]
  · have hall : s.chars.takeWhile (fun c => decide (c ≠ '\x00')) = s.chars := by
      refine takeWhile_eq_self_iff.2 fun c hc => ?_
      simpa using fun h : c = '\x00' => hnul (h ▸ hc)
    have hwhole : (s.chars ++ '\n' :: t.chars).takeWhile (fun c => decide (c ≠ '\x00')) =
        s.chars ++ '\n' :: t.chars.takeWhile fun c => decide (c ≠ '\x00') := by
      rw [takeWhile_append, hall, if_pos rfl, takeWhile_cons_of_pos (by decide)]
    rw [hall, hwhole]
    have hcut : Lexer.Cut (t.chars.takeWhile fun c => decide (c ≠ '\x00'))
        ⟨s.chars ++ '\n' :: t.chars.takeWhile fun c => decide (c ≠ '\x00'), .start⟩
        ⟨s.chars, .start⟩ := ⟨rfl, rfl⟩
    exact (Lexer.tokensFrom_cut _ hcut (Nat.lt_succ_self _)
      (Nat.lt_succ_self _)).imp_right .inr

end Inkwell
