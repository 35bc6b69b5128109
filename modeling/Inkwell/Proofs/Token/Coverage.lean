import Mathlib
import Inkwell.Heap.Inspect
import Inkwell.Proofs.Token.Positions

/-!
# What the tokens of a source cover

A source with which nothing is wrong is gaps and words up to its first NUL, whatever its bytes are
(`Token.scan_tiled`). What follows a NUL is not looked at.

A string is shown between quotes, with a backslash before each quote in it and before nothing else.
So it is read back exactly if there is no backslash in it (`Heap.scan_inspect_string`).
-/

namespace Inkwell

open List Text

namespace Token

/-- When nothing is wrong, the tokens cover a source up to its first NUL: its runes there are gaps and words,
one word for each token, and the end stands behind them. -/
theorem scan_tiled (source : Text) (h : (Token.scan source).problems = []) :
    ∃ read dropped : List Rune,
      source.bytes = read.flatMap Rune.bytes ++ dropped.flatMap Rune.bytes ∧
      Lexer.Laid .illegal [] (read.map Rune.toChar) (Token.scan source).tokens [] ∧
      (∀ t ∈ (Token.scan source).tokens.getLast?,
        t.kind = .finish ∧ t.position = .behind (read.map Rune.toChar)) ∧
      (∀ r ∈ dropped.head?, r = .char '\x00') ∧ (dropped = [] ↔ 0 ∉ source.bytes) := by
  have hlaid := Lexer.laid_scan source
  have hread : (source.runes.takeWhile fun r => r.toChar ≠ '\x00').map Rune.toChar =
      source.chars.takeWhile (· ≠ '\x00') := by
    rw [chars, takeWhile_map]
    rfl
  rw [h, ← hread] at hlaid
  refine ⟨_, source.runes.dropWhile fun r => r.toChar ≠ '\x00', ?_, hlaid,
    fun t ht => hlaid.position_of_last ht, ?_, ?_⟩
  · rw [← flatMap_append, takeWhile_append_dropWhile, flatMap_bytes_runes]
  · intro r hr
    have hstop := head?_dropWhile_not (fun r : Rune => decide (r.toChar ≠ '\x00')) source.runes
    rw [Option.mem_def.1 hr] at hstop
    cases r with
    | char c => exact congrArg Rune.char (not_not.1 (of_decide_eq_false hstop))
    | stray b => simp [Rune.toChar] at hstop
  · rw [dropWhile_eq_nil_iff, ← mem_chars_iff (by decide), chars, mem_map]
    simp

/-- Two strings with more separators than one between them, and a comment with a byte that is no
character. -/
def commentedString : Text := "'a',, \n'b' \x60" ++ ofBytes [0xff] ++ "\x60"

theorem scan_tiled_comment : (Token.scan commentedString).problems = [] ∧
    (Token.scan commentedString).tokens.map (·.kind) = [.string, .separator, .string, .finish] ∧
    ∃ read : List Rune, commentedString.bytes = read.flatMap Rune.bytes ∧
      Lexer.Laid .illegal [] (read.map Rune.toChar) (Token.scan commentedString).tokens [] := by
  have hnone : (Token.scan commentedString).problems = [] := by decide
  obtain ⟨read, dropped, hbytes, htiled, -, -, hdropped⟩ := scan_tiled _ hnone
  obtain rfl := hdropped.2 (by decide)
  exact ⟨hnone, by decide, read, by simpa using hbytes, htiled⟩

end Token

/-! ## Strings that are shown -/

/-- How a character of a string is shown. -/
def escapeQuote (c : Char) : List Char := if c = '\'' then ['\\', '\''] else [c]

theorem flatMap_of_notMem {α : Type} [DecidableEq α] {q : α} {xs : List α} (ys : List α) (h : q ∉ xs) :
    xs.flatMap (fun x => if x = q then ys else [x]) = xs := by
  rw [flatMap_congr fun x hx => if_neg (ne_of_mem_of_not_mem hx h), flatMap_singleton']

theorem length_flatMap_escapeQuote (cs : List Char) :
    (cs.flatMap escapeQuote).length = cs.length + cs.count '\'' := by
  induction cs with
  | nil => rfl
  | cons c cs ih =>
    rw [flatMap_cons, length_append, ih, escapeQuote, length_cons, count_cons]
    by_cases hc : c = '\'' <;> simp [hc] <;> omega

theorem means_flatMap_escapeQuote {cs : List Char} (h : '\\' ∉ cs) :
    Lexer.Means (cs.flatMap escapeQuote) cs := by
  induction cs with
  | nil => exact .nil
  | cons c cs ih =>
    obtain ⟨hc, hcs⟩ := not_or.1 (mem_cons.not.1 h)
    rw [flatMap_cons, escapeQuote]
    split
    · subst c
      exact .escaped '\'' (ih hcs)
    · rename_i hquote
      exact .plain hquote (Ne.symm hc) (ih hcs)

/-- A quote and a backslash take two characters each inside a string. -/
theorem Lexer.Means.length_le {body value : List Char} (h : Means body value) :
    value.length + value.count '\'' + value.count '\\' ≤ body.length := by
  induction h with
  | nil => simp
  | plain hquote hescape _ ih =>
    simp only [length_cons, count_cons_of_ne hquote, count_cons_of_ne hescape]
    omega
  | escaped x _ ih =>
    simp only [length_cons, count_cons]
    split <;> split <;> simp_all <;> omega

namespace Text

/-- The characters of a text as it is shown. -/
theorem chars_singleQuoted (t : Text) :
    t.singleQuoted.chars = '\'' :: (t.chars.flatMap escapeQuote ++ ['\'']) := by
  have hinside : ∀ (n : Nat) (bs : List UInt8), bs.length < n →
      (ofBytes (bs.flatMap fun b => if b = 39 then [92, 39] else [b])).chars =
        (ofBytes bs).chars.flatMap escapeQuote := by
    have hplain : ∀ {bs : List UInt8}, 39 ∉ bs →
        (ofBytes bs).chars.flatMap escapeQuote = (ofBytes bs).chars := by
      intro bs hbs
      refine flatMap_of_notMem _ fun h => hbs ?_
      simpa using (@mem_chars_iff 39 (by decide) _).1 h
    intro n
    induction n with
    | zero => exact fun bs h => absurd h (Nat.not_lt_zero _)
    | succ n ih =>
      intro bs hlength
      by_cases hquote : 39 ∈ bs
      · obtain ⟨xs, ys, rfl, hxs⟩ := eq_append_cons_of_mem hquote
        have hys := ih ys (by simp at hlength; omega)
        rw [flatMap_append, flatMap_of_notMem _ hxs, flatMap_cons, if_pos rfl, cons_append, cons_append,
          nil_append, chars_ofBytes_ascii (by decide), ← nil_append (39 :: _),
          chars_ofBytes_ascii (by decide), hys, chars_ofBytes_ascii (by decide), flatMap_append,
          hplain hxs, flatMap_cons]
        rfl
      · rw [flatMap_of_notMem _ hquote, hplain hquote]
  have hbytes : t.singleQuoted = ofBytes ([] ++ 39 ::
      (t.bytes.flatMap (fun b => if b = 39 then [92, 39] else [b]) ++ 39 :: [])) := by
    apply ext_bytes
    rw [singleQuoted, bytes_append, bytes_append, replaceByte, bytes_ofBytes, bytes_ofBytes]
    rfl
  rw [hbytes, chars_ofBytes_ascii (by decide), chars_ofBytes_ascii (by decide), hinside _ _ (Nat.lt_succ_self _),
    ofBytes_bytes]
  rfl

end Text

open Lexer in
/-- A source that is nothing but a string. -/
theorem Token.scan_of_means {source : Text} {body value : List Char} (hmeans : Means body value)
    (hchars : source.chars = '\'' :: (body ++ ['\''])) (hnul : '\x00' ∉ source.chars) :
    ∃ s e : Token, Token.scan source = ⟨[s, e], []⟩ ∧ s.kind = .string ∧
      s.literal = some (.text (ofChars value)) ∧ e.kind = .finish := by
  have hall : source.chars.takeWhile (· ≠ '\x00') = source.chars :=
    takeWhile_eq_self_iff.2 fun c hc => decide_eq_true fun h => hnul (h ▸ hc)
  have hnext : ∀ rounds, Lexer.next .illegal (rounds + 1) { rest := '\'' :: (body ++ ['\'']) } =
      tokenAt .illegal { rest := '\'' :: (body ++ ['\'']) } := by
    intro rounds
    unfold Lexer.next
    rw [skipGap_of_head rounds (by simp [Cursor.skipWhile, Lexer.isBlank, isSpace, backquote])]
    rfl
  have hend : ∀ rounds position, Lexer.next .string (rounds + 1) ⟨[], position⟩ =
      ⟨{ kind := .finish, position }, ⟨[], position⟩, []⟩ := fun _ _ => rfl
  have hrest : ('\'' :: (body ++ ['\''])).drop (0 + body.length + 1 + 1) = [] := by simp
  rw [Token.scan, hall, hchars, length_cons, tokensFrom_of_ne (by simp [hnext, tokenAt_string]), hnext,
    tokenAt_string _ rfl, hmeans.stringBody_eq, Cursor.skip, hrest,
    tokensFrom_of_finish (by rw [hend]), hend]
  exact ⟨_, _, rfl, rfl, rfl, rfl⟩

/-- A string without a NUL is read back from what it is shown as exactly if it holds no backslash. -/
theorem Heap.scan_inspect_string (h : Heap) (blocks : Nat → Text) (buffer : Nat)
    (hwell : (h.text buffer).isWellFormed = true) (hnul : 0 ∉ (h.text buffer).bytes) :
    (∃ s e : Token, Token.scan (h.inspect blocks (.string buffer)) = ⟨[s, e], []⟩ ∧ s.kind = .string ∧
      s.literal = some (.text (h.text buffer)) ∧ e.kind = .finish) ↔ 92 ∉ (h.text buffer).bytes := by
  have hshown : h.inspect blocks (.string buffer) = (h.text buffer).singleQuoted := rfl
  have hchars := chars_singleQuoted (h.text buffer)
  rw [hshown]
  generalize h.text buffer = t at *
  rw [← @mem_chars_iff 92 (by decide)]
  constructor
  · -- What is read would take more characters than there are.
    rintro ⟨s, e, hscan, hkind, hliteral, -⟩ hescape
    have hlaid := Lexer.laid_scan t.singleQuoted
    have hlength := ( takeWhile_prefix (l := t.singleQuoted.chars) (· ≠ '\x00')).length_le
    rw [hscan] at hlaid
    generalize t.singleQuoted.chars.takeWhile (· ≠ '\x00') = cs at *
    rw [hchars, length_cons, length_append, length_flatMap_escapeQuote] at hlength
    generalize hnone : ([] : List Diagnostic) = none at hlaid
    cases hlaid with
    | @word _ _ gap word rest _ _ _ _ _ hspells _ _ _ =>
      obtain ⟨body, value, hmeans, hword, hvalue⟩ := hspells.string hkind (append_eq_nil_iff.1 hnone.symm).1
      have hsame : value = t.chars := by
        rw [hliteral, ← ofChars_chars hwell] at hvalue
        exact (ofChars_injective (Literal.text.inj (Option.some.inj hvalue))).symm
      have hbody := hmeans.length_le
      have hpos : 0 < t.chars.count '\\' := count_pos_iff.2 hescape
      have hwords := congrArg length hword
      simp only [hsame, length_cons, length_append, length_nil] at *
      omega
  · intro hescape
    have hinside : '\x00' ∉ t.chars := fun h => hnul ((@mem_chars_iff 0 (by decide) _).1 h)
    have hread := Token.scan_of_means (means_flatMap_escapeQuote hescape) hchars (by
      simp only [hchars, escapeQuote, mem_cons, mem_append, mem_flatMap]
      rintro (h | ⟨c, hc, h⟩ | h)
      · cases h
      · split at h <;> simp at h
        exact hinside (h ▸ hc)
      · simp at h)
    rwa [ofChars_chars hwell] at hread

/-- A heap with a string in which a quote and a line break stand. -/
def quotingHeap : Heap := { strings := #["it's\n"] }

theorem Heap.scan_inspect_string_quote :
    (quotingHeap.text 0).isWellFormed = true ∧ 0 ∉ (quotingHeap.text 0).bytes ∧
      (∃ s e : Token, Token.scan (quotingHeap.inspect (fun _ => "") (.string 0)) = ⟨[s, e], []⟩ ∧
        s.kind = .string ∧ s.literal = some (.text "it's\n") ∧ e.kind = .finish) :=
  have hwell : (quotingHeap.text 0).isWellFormed = true := by decide
  have hnul : 0 ∉ (quotingHeap.text 0).bytes := by decide
  ⟨hwell, hnul, (Heap.scan_inspect_string quotingHeap _ 0 hwell hnul).2 (by decide)⟩

end Inkwell
