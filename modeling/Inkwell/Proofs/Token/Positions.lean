import Mathlib
import Inkwell.Proofs.Token.Beginning

/-!
# Where tokens stand

The characters of a source are gaps and words in turn, one word for each token. A token carries the
position of the first character of its word, and so does what is wrong with it; a comment that is not
closed is reported where it starts (`Token.scan_laid`). A position is what counting the characters in
front of it gives, so along the list of tokens the positions grow.

What is a gap depends on the token before it. A line break is one where no expression can end, and a
comma only behind another separator, so of several separators in a row the first one is a word.
-/

namespace Inkwell

open List

/-! ## Positions -/

namespace Position

/-- The position behind some characters of a source, by counting: the line breaks among them, and the
characters behind the last one. -/
def behind (before : List Char) : Position :=
  ⟨before.count '\n' + 1, (before.reverse.takeWhile (· ≠ '\n')).length + 1⟩

/-- Whether a position comes before another one in a source. -/
def Before (p q : Position) : Prop := p.line < q.line ∨ p.line = q.line ∧ p.column < q.column

theorem Before.trans {p q r : Position} (h : p.Before q) (h' : q.Before r) : p.Before r := by
  unfold Before at *
  omega

theorem before_next (p : Position) (x : Char) : p.Before (p.next x) := by
  unfold next Before
  split
  · exact .inl (by simp)
  · exact .inr (by simp)

theorem next_behind (before : List Char) (x : Char) :
    (behind before).next x = behind (before ++ [x]) := by
  by_cases hx : x = '\n'
  · subst hx
    simp [next, behind]
  · simp [next, behind, hx]

theorem past_behind (before xs : List Char) : (behind before).past xs = behind (before ++ xs) := by
  induction xs generalizing before with
  | nil => simp [past]
  | cons x xs ih =>
    show ((behind before).next x).past xs = _
    rw [next_behind, ih, append_assoc, singleton_append]

theorem behind_before (before : List Char) {xs : List Char} (hxs : xs ≠ []) :
    (behind before).Before (behind (before ++ xs)) := by
  induction xs generalizing before with
  | nil => exact absurd rfl hxs
  | cons x xs ih =>
    have hnext : (behind before).Before (behind (before ++ [x])) := by
      rw [← next_behind]
      exact before_next _ x
    rw [append_cons]
    cases xs with
    | nil => rwa [append_nil]
    | cons y xs => exact hnext.trans (ih _ (cons_ne_nil y xs))

end Position

open Position (behind)

namespace Lexer

/-! ## Gaps and words -/

/-- A gap behind a token of kind `last`, with what follows it: blanks, line breaks where no expression
can end, commas behind a separator, comments up to the end of their line, and comments between two
backquotes. -/
inductive Gap (last : Kind) (rest : List Char) : List Char → Prop
  | nil : Gap last rest []
  | blank {x : Char} {xs : List Char} :
    isSpace x = true ∨ x = '\n' ∧ last.endsExpression = false ∨ x = ',' ∧ last = .separator →
    Gap last rest xs → Gap last rest (x :: xs)
  | line (body : List Char) {xs : List Char} : '\n' ∉ body → (∀ x ∈ (xs ++ rest).head?, x = '\n') →
    Gap last rest xs → Gap last rest (backquote :: backquote :: (body ++ xs))
  | block (body : List Char) {xs : List Char} : body ≠ [] → backquote ∉ body → Gap last rest xs →
    Gap last rest (backquote :: (body ++ backquote :: xs))

/-- A string without a closing quote. -/
def Opens (word : List Char) : Prop :=
  ∃ body, word = '\'' :: body ∧ ∀ inside value more, Means inside value → body ≠ inside ++ '\'' :: more

end Lexer

/-- What is wrong with a token, read from a word with `rest` behind it. A string that is not closed takes
all characters up to the end. -/
def Problem.Concerns (p : Problem) (t : Token) (word rest : List Char) : Prop :=
  match p with
  | .unexpectedCharacter x => t.kind = .illegal ∧ word = [x]
  | .unterminatedString => t.kind = .string ∧ Lexer.Opens word ∧ rest = []
  | .malformedNumber lexeme => t.kind = .number ∧ t.lexeme = lexeme
  | _ => False

namespace Lexer

/-- A token is read from a word behind one of kind `last`, and what is wrong with it. Any word but that of a
string is the lexeme. A separator is a comma, or a line break where an expression can end. A string is
written between quotes, and its literal is what stands there. -/
structure Spells (last : Kind) (word rest : List Char) (t : Token) (ds : List Diagnostic) : Prop where
  nonempty : word ≠ []
  more : t.kind ≠ .finish
  lexeme : t.kind ≠ .string → t.lexeme = Text.ofChars word
  separator : t.kind = .separator → word = [','] ∨ word = ['\n'] ∧ last.endsExpression = true
  string : t.kind = .string → ds = [] → ∃ body value, Means body value ∧ word = '\'' :: (body ++ ['\'']) ∧
    t.literal = some (.text (Text.ofChars value))
  problems : ∀ d ∈ ds, d.problem.Concerns t word rest ∧ d.position = t.position

/-- The tokens of `rest`, which stands behind `before` and a token of kind `last` in a source, and what is
wrong with them. Every token has the position of the first character of its word, and the end has the
position behind all characters. A separator stands behind no other one. -/
inductive Laid : Kind → List Char → List Char → List Token → List Diagnostic → Prop
  | finish {last : Kind} {before gap : List Char} {t : Token} : Gap last [] gap → t.kind = .finish →
    t.position = behind (before ++ gap) → Laid last before gap [t] []
  | unclosed {last : Kind} {before gap body : List Char} {t : Token} :
    Gap last (backquote :: body) gap → backquote ∉ body → t.kind = .finish →
    t.position = behind (before ++ (gap ++ backquote :: body)) →
    Laid last before (gap ++ backquote :: body) [t]
      [{ problem := .unterminatedComment, position := behind (before ++ gap) }]
  | word {last : Kind} {before gap word rest : List Char} {t : Token} {ts : List Token}
    {ds ds' : List Diagnostic} :
    Gap last (word ++ rest) gap → Spells last word rest t ds →
    (t.kind = .separator → last ≠ .separator) → t.position = behind (before ++ gap) →
    Laid t.kind (before ++ (gap ++ word)) rest ts ds' →
    Laid last before (gap ++ (word ++ rest)) (t :: ts) (ds ++ ds')

variable {before gap word rest xs : List Char} {last : Kind} {t : Token} {ts : List Token}
  {ds : List Diagnostic}

theorem Gap.append (h : Gap last (xs ++ rest) gap) (h' : Gap last rest xs) :
    Gap last rest (gap ++ xs) := by
  induction h with
  | nil => exact h'
  | blank hx _ ih => exact .blank hx ih
  | line body hbody hend _ ih =>
    rw [cons_append, cons_append, append_assoc]
    exact .line body hbody (by rwa [append_assoc]) ih
  | block body hne hbody _ ih =>
    rw [cons_append, append_assoc]
    exact .block body hne hbody ih

/-- What stands behind a gap stands behind what is in front of it. -/
theorem Laid.of_gap (hgap : Gap last rest gap) (h : Laid last (before ++ gap) rest ts ds) :
    Laid last before (gap ++ rest) ts ds := by
  generalize hfront : before ++ gap = front at h
  cases h with
  | finish h hkind hposition =>
    subst hfront
    refine .finish ?_ hkind (by rw [hposition, append_assoc])
    exact Gap.append (by rwa [append_nil]) h
  | unclosed h hbody hkind hposition =>
    subst hfront
    rw [← append_assoc, append_assoc before]
    exact .unclosed (hgap.append h) hbody hkind (by rw [hposition]; simp)
  | word h hspells hfirst hposition hrest =>
    subst hfront
    rw [← append_assoc gap]
    refine .word (hgap.append h) hspells hfirst ?_ ?_
    · rwa [← append_assoc]
    · rwa [append_assoc, ← append_assoc gap] at hrest

/-- The end stands behind all characters. -/
theorem Laid.position_of_last (h : Laid last before rest ts ds) (ht : t ∈ ts.getLast?) :
    t.kind = .finish ∧ t.position = behind (before ++ rest) := by
  induction h with
  | finish _ hkind hposition | unclosed _ _ hkind hposition =>
    cases ht
    exact ⟨hkind, hposition⟩
  | word _ _ _ _ hrest ih =>
    cases hrest <;> simpa using ih (by simpa using ht)

/-- No token stands in front of the source that it is read from. -/
theorem Laid.exists_behind (h : Laid last before rest ts ds) (ht : t ∈ ts) :
    ∃ more, t.position = behind (before ++ more) := by
  induction h with
  | finish _ _ hposition | unclosed _ _ _ hposition =>
    obtain rfl := mem_singleton.1 ht
    exact ⟨_, hposition⟩
  | word _ _ _ hposition _ ih =>
    rcases mem_cons.1 ht with rfl | ht
    · exact ⟨_, hposition⟩
    · obtain ⟨more, hmore⟩ := ih ht
      exact ⟨_, by rw [hmore, append_assoc]⟩

theorem Laid.pairwise (h : Laid last before rest ts ds) :
    ts.Pairwise fun s t => s.position.Before t.position := by
  induction h with
  | finish | unclosed => exact pairwise_singleton _ _
  | @word _ before gap word _ s _ _ _ _ hspells _ hposition hrest ih =>
    refine pairwise_cons.2 ⟨fun t ht => ?_, ih⟩
    obtain ⟨more, hmore⟩ := hrest.exists_behind ht
    have hne : word ++ more ≠ [] := append_ne_nil_of_left_ne_nil hspells.nonempty more
    rw [hposition, hmore, append_assoc before, append_assoc gap, ← append_assoc before]
    exact Position.behind_before _ hne

/-! ## The lexer -/

/-- The cursor at `rest`, which stands behind `before` in a source. -/
def between (before rest : List Char) : Cursor := ⟨rest, behind before⟩

theorem skip_between (before rest : List Char) (n : Nat) :
    (between before rest).skip n = between (before ++ rest.take n) (rest.drop n) := by
  simp only [Cursor.skip, between, Position.past_behind]

theorem skipWhile_between (before rest : List Char) (p : Char → Bool) :
    (between before rest).skipWhile p =
      between (before ++ rest.takeWhile p) (rest.dropWhile p) := by
  simp only [Cursor.skipWhile, between, Position.past_behind]

variable {r : Cursor × Option Position}

/-- A cursor goes over a gap, up to no line break but one that separates, or over a gap and a comment that
is not closed. -/
def Skips (last : Kind) (before rest : List Char) (r : Cursor × Option Position) : Prop :=
  (∃ gap start, Gap last start gap ∧ rest = gap ++ start ∧
    (start.head? = some '\n' → last.endsExpression = true) ∧
    r = (between (before ++ gap) start, none)) ∨
  ∃ gap body, Gap last (backquote :: body) gap ∧ backquote ∉ body ∧ rest = gap ++ backquote :: body ∧
    r = (between (before ++ (gap ++ backquote :: body)) [], some (behind (before ++ gap)))

theorem Skips.of_gap (hgap : Gap last rest gap) (h : Skips last (before ++ gap) rest r) :
    Skips last before (gap ++ rest) r := by
  rcases h with ⟨xs, start, hxs, rfl, hstart, rfl⟩ | ⟨xs, body, hxs, hbody, rfl, rfl⟩
  · exact .inl ⟨gap ++ xs, start, hgap.append hxs, by simp, hstart, by simp⟩
  · exact .inr ⟨gap ++ xs, body, hgap.append hxs, hbody, by simp, by simp⟩

theorem gap_takeWhile (last : Kind) (xs rest : List Char) :
    Gap last rest (xs.takeWhile (isBlank !last.endsExpression)) := by
  induction xs with
  | nil => exact .nil
  | cons x xs ih =>
    by_cases hx : isBlank (!last.endsExpression) x = true
    · rw [takeWhile_cons_of_pos hx]
      refine .blank ?_ ih
      rcases Bool.or_eq_true_iff.1 hx with hx | hx
      · exact .inl hx
      · exact .inr (.inl (by simpa [and_comm] using hx))
    · rw [takeWhile_cons_of_neg hx]
      exact .nil

theorem notMem_takeWhile (y : Char) (xs : List Char) : y ∉ xs.takeWhile (· ≠ y) := by
  intro hy
  simpa using mem_takeWhile_imp hy

theorem eq_of_dropWhile {y z : Char} {zs : List Char} (h : xs.dropWhile (· ≠ y) = z :: zs) : z = y := by
  have hstop := head?_dropWhile_not (· ≠ y) xs
  rw [h] at hstop
  simpa using hstop

/-- A comment up to the end of its line. -/
theorem gap_line (zs : List Char) :
    Gap last (zs.dropWhile (· ≠ '\n')) (backquote :: backquote :: zs.takeWhile (· ≠ '\n')) := by
  have hend : ∀ x ∈ (zs.dropWhile (· ≠ '\n')).head?, x = '\n' := by
    intro x hx
    obtain ⟨tail, htail⟩ := head?_eq_some_iff.1 hx
    exact eq_of_dropWhile htail
  simpa using Gap.line _ (notMem_takeWhile '\n' zs) hend .nil

/-- A comment between two backquotes. -/
theorem gap_block {y : Char} (hy : y ≠ backquote) (zs rest : List Char) :
    Gap last rest ([backquote] ++ (y :: zs).takeWhile (· ≠ backquote) ++ [backquote]) := by
  refine .block _ ?_ (notMem_takeWhile backquote _) .nil
  rw [takeWhile_cons_of_pos (by simpa using hy)]
  exact cons_ne_nil _ _

/-- Behind the backquote that starts a comment, the comment is closed or it goes up to the end. -/
theorem skips_block {y : Char} (hy : y ≠ backquote) {front zs : List Char} {rounds : Nat}
    (hrounds : (y :: zs).length < rounds)
    (ih : ∀ {rest : List Char}, rest.length < rounds → ∀ before,
      Skips last before rest (skipGap (!last.endsExpression) rounds (between before rest))) :
    let inner := ((between front (backquote :: y :: zs)).skip 1).skipWhile (· ≠ backquote)
    Skips last front (backquote :: y :: zs)
      (if inner.rest.isEmpty then (inner, some (behind front))
        else skipGap (!last.endsExpression) rounds (inner.skip 1)) := by
  have hsplit := takeWhile_append_dropWhile (p := (· ≠ backquote)) (l := y :: zs)
  have hblock := @gap_block last _ hy zs
  rw [skip_between, skipWhile_between]
  simp only [take_succ_cons, take_zero, drop_succ_cons, drop_zero, skip_between]
  generalize hbody : (y :: zs).takeWhile (· ≠ backquote) = body at hsplit hblock
  have hmem : backquote ∉ body := hbody ▸ notMem_takeWhile backquote _
  cases hrest : (y :: zs).dropWhile (· ≠ backquote) with
  | nil =>
    rw [hrest, append_nil] at hsplit
    subst hsplit
    exact .inr ⟨[], y :: zs, .nil, hmem, rfl, by simp [between]⟩
  | cons z rest =>
    obtain rfl := eq_of_dropWhile hrest
    rw [hrest] at hsplit
    have hless : rest.length < rounds := by
      have hlength := congrArg length hsplit
      simp only [length_append, length_cons] at hlength hrounds
      omega
    have hbehind := ih hless (front ++ ([backquote] ++ body ++ [backquote]))
    rw [← hsplit]
    simpa [between] using Skips.of_gap (hblock rest) hbehind

theorem skips_skipGap (last : Kind) {rounds : Nat} (hrounds : rest.length < rounds) (before : List Char) :
    Skips last before rest (skipGap (!last.endsExpression) rounds (between before rest)) := by
  induction rounds generalizing before rest with
  | zero => exact absurd hrounds (Nat.not_lt_zero _)
  | succ rounds ih =>
    have hskip := skipWhile_between before rest (isBlank !last.endsExpression)
    have hblank := head?_dropWhile_not (isBlank !last.endsExpression) rest
    have hlength := (dropWhile_suffix (isBlank !last.endsExpression) (l := rest)).length_le
    rw [← takeWhile_append_dropWhile (p := isBlank !last.endsExpression) (l := rest)]
    refine .of_gap (gap_takeWhile last rest _) ?_
    rw [takeWhile_append_dropWhile]
    generalize before ++ rest.takeWhile (isBlank !last.endsExpression) = front at hskip ⊢
    generalize rest.dropWhile (isBlank !last.endsExpression) = start at hskip hblank hlength ⊢
    have hstart := congrArg Cursor.rest hskip
    by_cases hhead : ∀ x ∈ start.head?, x ≠ backquote
    · rw [skipGap_of_head rounds (by rwa [hskip]), hskip]
      refine .inl ⟨[], start, .nil, rfl, fun hbreak => ?_, by rw [append_nil]⟩
      rw [hbreak] at hblank
      have hends : isSpace '\n' = false ∧ last.endsExpression = true := by simpa [isBlank] using hblank
      exact hends.2
    push Not at hhead
    obtain ⟨_, hx, rfl⟩ := hhead
    obtain ⟨zs, rfl⟩ := head?_eq_some_iff.1 hx
    cases zs with
    | nil =>
      rw [skipGap_of_last rounds hstart, hskip, skip_between]
      exact .inr ⟨[], [], .nil, not_mem_nil, rfl, by simp [between]⟩
    | cons y zs =>
      have hless : (y :: zs).length < rounds := by
        rw [length_cons] at hlength
        omega
      by_cases hy : y = backquote
      · subst hy
        rw [skipGap_of_line rounds hstart, hskip, skipWhile_between]
        have hline : (zs.dropWhile (· ≠ '\n')).length < rounds :=
          (dropWhile_suffix _).length_le.trans_lt (Nat.lt_of_succ_lt hless)
        have hcomment := Skips.of_gap (gap_line zs) (ih hline (front ++ _))
        rwa [cons_append, cons_append, takeWhile_append_dropWhile] at hcomment
      · rw [skipGap_of_block rounds hy hstart, hskip]
        exact skips_block hy hless ih

/-- A string that is not closed takes all characters. -/
theorem length_stringBody {value : List Char} {length : Nat}
    (h : (stringBody value length xs).closed = false) :
    (stringBody value length xs).length = length + xs.length := by
  fun_induction stringBody value length xs with
  | case1 | case3 => rfl
  | case2 => cases h
  | case4 _ _ _ _ ih | case5 _ _ _ _ _ _ _ ih =>
    rw [ih h]
    simp only [length_cons]
    omega

theorem kind_symbol? {kind : Kind} {n : Nat} (h : symbol? xs = some (kind, n)) :
    kind ≠ .string ∧ (kind = .separator → xs.take n = [',']) := by
  unfold symbol? at h
  split at h <;> cases h <;> simp

/-- A token has been read behind one of kind `last`. -/
def Reads (last : Kind) (before rest : List Char) (s : Step) : Prop :=
  ∃ word more, rest = word ++ more ∧ s.rest = between (before ++ word) more ∧
    s.token.position = behind before ∧ Spells last word more s.token s.problems

theorem reads_take (n : Nat) (hposition : t.position = behind before)
    (hspells : Spells last (rest.take n) (rest.drop n) t ds) :
    Reads last before rest ⟨t, (between before rest).skip n, ds⟩ :=
  ⟨rest.take n, rest.drop n, (take_append_drop n rest).symm, skip_between before rest n, hposition, hspells⟩

/-- A token with which nothing is wrong, and which is no string. -/
theorem Spells.of_ne_string (hstring : t.kind ≠ .string) (hnonempty : word ≠ []) (hmore : t.kind ≠ .finish)
    (hlexeme : t.lexeme = Text.ofChars word)
    (hseparator : t.kind = .separator → word = [','] ∨ word = ['\n'] ∧ last.endsExpression = true) :
    Spells last word rest t [] :=
  ⟨hnonempty, hmore, fun _ => hlexeme, hseparator, fun h => absurd h hstring, by simp⟩

theorem reads_string (last : Kind) (before xs : List Char) :
    Reads last before ('\'' :: xs) (tokenAt last (between before ('\'' :: xs))) := by
  rw [tokenAt_string last rfl]
  refine reads_take _ rfl
    ⟨by simp, by simp, fun h => absurd rfl h, by simp, fun _ hclosed => ?_, fun d hd => ?_⟩
  · obtain ⟨body, value, more, hmeans, rfl⟩ := exists_means (by simpa using hclosed)
    rw [hmeans.stringBody_eq]
    exact ⟨body, value, hmeans, by simp [take_length_add_append], rfl⟩
  · split at hd
    · exact absurd hd not_mem_nil
    rename_i hopen
    obtain rfl := mem_singleton.1 hd
    rw [length_stringBody (by simpa using hopen)]
    refine ⟨⟨rfl, ⟨xs, by simp, fun inside value more hmeans hxs => hopen ?_⟩, by simp⟩, rfl⟩
    rw [hxs, hmeans.stringBody_eq]

theorem reads_tokenAt (last : Kind) (before : List Char) (hrest : rest ≠ [])
    (hends : rest.head? = some '\n' → last.endsExpression = true) :
    Reads last before rest (tokenAt last (between before rest)) := by
  obtain ⟨x, xs, rfl⟩ := exists_cons_of_ne_nil hrest
  by_cases hbreak : x = '\n'
  · subst hbreak
    rw [tokenAt_newline last rfl]
    exact reads_take 1 rfl
      (.of_ne_string (by simp) (by simp) (by simp) (by rfl) fun _ => .inr ⟨rfl, hends rfl⟩)
  by_cases hquote : x = '\''
  · subst hquote
    exact reads_string last before xs
  rw [tokenAt_other last rfl hbreak hquote]
  cases hsymbol : symbol? (x :: xs) with
  | some found =>
    obtain ⟨kind, n⟩ := found
    obtain ⟨hpos, hn, hfinish⟩ := length_symbol? hsymbol
    obtain ⟨hstring, hseparator⟩ := kind_symbol? hsymbol
    refine reads_take n rfl (.of_ne_string hstring ?_ hfinish rfl fun h => .inl (hseparator h))
    rw [← length_pos_iff, length_take_of_le hn]
    exact hpos
  | none =>
    dsimp only
    split
    · rename_i hdigit
      have htake := prefix_iff_eq_take.1 (literalDigits_isPrefix (last ≠ .dot) (x :: xs))
      refine reads_take _ rfl ?_
      rw [← htake]
      refine ⟨length_pos_iff.1 (length_literalDigits _ hdigit xs), by simp, fun _ => rfl, by simp, by simp,
        fun d hd => ?_⟩
      split at hd
      · obtain rfl := mem_singleton.1 hd
        exact ⟨⟨rfl, rfl⟩, rfl⟩
      · exact absurd hd not_mem_nil
    split
    · rename_i hstart
      have htake := prefix_iff_eq_take.1 <| takeWhile_prefix continuesName (l := x :: xs)
      obtain ⟨hfinish, hstring, hseparator⟩ :=
        kind_nameKind (Text.ofChars ((x :: xs).takeWhile continuesName))
      refine reads_take _ rfl
        (.of_ne_string hstring ?_ hfinish (by rw [← htake]) fun h => absurd h hseparator)
      rw [← htake, takeWhile_cons_of_pos (by simp [continuesName, hstart])]
      exact cons_ne_nil _ _
    · refine reads_take 1 rfl ⟨by simp, by simp, fun _ => ?_, by simp, by simp, fun d hd => ?_⟩
      · simp [Text.ofChars, Text.ofChar]
      · obtain rfl := mem_singleton.1 hd
        exact ⟨⟨rfl, rfl⟩, rfl⟩

/-- The next token is the end, or it is read from a word behind a gap. -/
theorem next_cases (last : Kind) {rounds : Nat} (hrounds : rest.length < rounds) (before : List Char) :
    ((next last rounds (between before rest)).token.kind = .finish ∧
      Laid last before rest [(next last rounds (between before rest)).token]
        (next last rounds (between before rest)).problems) ∨
    ∃ gap start, Gap last start gap ∧ rest = gap ++ start ∧
      Reads last (before ++ gap) start (next last rounds (between before rest)) := by
  unfold next
  rcases skips_skipGap last hrounds before with
    ⟨gap, start, hgap, rfl, hstart, hskip⟩ | ⟨gap, body, hgap, hbody, rfl, hskip⟩
  · rw [hskip]
    cases start with
    | nil =>
      refine .inl ⟨rfl, ?_⟩
      rw [append_nil]
      exact .finish hgap rfl rfl
    | cons x xs =>
      exact .inr ⟨gap, x :: xs, hgap, rfl, reads_tokenAt last _ (cons_ne_nil x xs) hstart⟩
  · rw [hskip]
    exact .inl ⟨rfl, .unclosed hgap hbody rfl rfl⟩

theorem laid_tokensFrom {rounds : Nat} (hrounds : rest.length < rounds) {tokens : List Token}
    (hlast : tokens.head?.any (·.kind = .separator) = decide (last = .separator))
    (problems : List Diagnostic) (before : List Char) :
    ∃ ts ds, tokensFrom tokens problems last rounds (between before rest) =
      ⟨tokens.reverse ++ ts, problems.reverse ++ ds⟩ ∧ Laid last before rest ts ds := by
  induction rounds generalizing rest tokens problems last before with
  | zero => exact absurd hrounds (Nat.not_lt_zero _)
  | succ rounds ih =>
    rcases next_cases last hrounds before with
      ⟨hfinish, hlaid⟩ |
      ⟨gap, start, hgap, rfl, word, more, rfl, hnext, hposition, hspells⟩
    · exact ⟨_, _, tokensFrom_of_finish hfinish, hlaid⟩
    rw [tokensFrom_of_ne hspells.more]
    generalize next last (rounds + 1) (between before (gap ++ (word ++ more))) = step at *
    obtain ⟨t, cursor, ds'⟩ := step
    dsimp only at *
    subst hnext
    have hless : more.length < rounds := by
      have := length_pos_iff.2 hspells.nonempty
      simp only [length_append] at hrounds
      omega
    unfold addToken
    split
    · -- A separator directly behind a separator belongs to the gap.
      rename_i hrepeated
      obtain ⟨hkind, hbefore⟩ := Bool.and_eq_true_iff.1 hrepeated
      obtain ⟨ts, ds, hfrom, hlaid⟩ :=
        ih hless (hbefore.trans hkind.symm) (ds'.reverse ++ problems) (before ++ gap ++ word)
      have hkind : t.kind = .separator := by simpa using hkind
      have hlast : last = .separator := by simpa [hbefore] using hlast
      have hnone : ds' = [] := by
        refine eq_nil_iff_forall_not_mem.2 fun d hd => ?_
        have hconcerns := (hspells.problems d hd).1
        unfold Problem.Concerns at hconcerns
        simp only [hkind] at hconcerns
        split at hconcerns <;> simp at hconcerns
      obtain rfl : word = [','] := (hspells.separator hkind).resolve_right fun h => by
        rw [hlast] at h
        exact absurd h.2 (by decide)
      have hcomma : Gap last more [','] := .blank (.inr (.inr ⟨rfl, hlast⟩)) .nil
      refine ⟨ts, ds, by rw [hfrom, hnone]; rfl, ?_⟩
      rw [hkind, ← hlast, append_assoc] at hlaid
      rw [← append_assoc]
      exact .of_gap (hgap.append hcomma) hlaid
    · rename_i hfirst
      obtain ⟨ts, ds, hfrom, hlaid⟩ :=
        @ih _ t.kind hless (t :: tokens) rfl (ds'.reverse ++ problems) (before ++ gap ++ word)
      rw [append_assoc] at hlaid
      refine ⟨t :: ts, ds' ++ ds, by rw [hfrom]; simp,
        .word hgap hspells (fun hkind h => hfirst ?_) hposition hlaid⟩
      simp [hkind, hlast, h]

/-- The tokens of a source, and what is wrong with them. -/
theorem laid_scan (source : Text) :
    Laid .illegal [] (source.chars.takeWhile (· ≠ '\x00')) (Token.scan source).tokens
      (Token.scan source).problems := by
  have hfirst : ([] : List Token).head?.any (·.kind = .separator) = decide (Kind.illegal = .separator) :=
    rfl
  obtain ⟨ts, ds, hscan, hlaid⟩ := laid_tokensFrom (Nat.lt_succ_self
    (source.chars.takeWhile (· ≠ '\x00')).length) hfirst [] []
  have hsource : Token.scan source = ⟨ts, ds⟩ := hscan
  rwa [hsource]

end Lexer

/-- The source up to its first NUL is gaps and words, every token and everything that is wrong has the
position of the word or the comment it stands for, and the positions of the tokens grow. -/
theorem Token.scan_laid (source : Text) :
    Lexer.Laid .illegal [] (source.chars.takeWhile (· ≠ '\x00')) (Token.scan source).tokens
      (Token.scan source).problems ∧
    (Token.scan source).tokens.Pairwise fun s t => s.position.Before t.position :=
  ⟨Lexer.laid_scan source, (Lexer.laid_scan source).pairwise⟩

end Inkwell
