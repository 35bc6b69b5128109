import Mathlib
import Inkwell.Proofs.Engine.Caching
import Inkwell.Proofs.Value.Keys

/-!
# What the text of a key determines

The text whose digest is the key of a program is its parts one behind the other: the passes, two
numbers, the names of the host functions, the file and the source. For any two engines, the same text
means the same code as long as the parts can be told apart in it (`Job.code_eq_of_preimage_eq`): no
name of a host function has a comma or the words `;file=` in it, no name of a file has a zero byte, and
the passes are left to the optimizer on both engines or on neither. Passes and numbers are always told
apart, because no name of a pass has a comma or a semicolon in it.

Each of the four conditions is needed: without it there are programs with the same text and different
code (`Job.collide_of_zero_byte`, `Job.collide_of_mark`, `Job.collide_of_comma` and
`Job.collide_of_passes`).
-/

namespace Inkwell

open List Text

variable {names : List Text} {e : Engine}

/-! ## Parts between separators -/

/-- What stands in front of the first occurrence of a word, and behind it. The word starts with an
element that is not in the rest of it, so two occurrences do not overlap. -/
theorem append_word_cancel {α : Type} {a : α} {word xs xs' ys ys' : List α} (ha : a ∉ word)
    (hxs : ¬ a :: word <:+: xs) (hxs' : ¬ a :: word <:+: xs')
    (h : xs ++ (a :: word ++ ys) = xs' ++ (a :: word ++ ys')) : xs = xs' ∧ ys = ys' := by
  -- If one of the beginnings were longer, an occurrence of the word would start inside it.
  have hshort : ∀ {between ys ys' xs : List α}, ¬ a :: word <:+: xs ++ between →
      a :: word ++ ys = between ++ (a :: word ++ ys') → between = [] := by
    intro between ys ys' xs hnone heq
    rcases append_eq_append_iff.1 heq with ⟨more, rfl, -⟩ | ⟨rest, hword, hrest⟩
    · exact absurd ⟨xs, more, by simp⟩ hnone
    · cases between with
      | nil => rfl
      | cons b between =>
        rw [cons_append] at hword
        obtain ⟨-, rfl⟩ := List.cons.inj hword
        cases rest with
        | nil => exact absurd ⟨xs, [], by simp at hword; simp [hword]⟩ hnone
        | cons c rest =>
          obtain ⟨rfl, -⟩ := List.cons.inj hrest
          exact absurd (mem_append_right _ mem_cons_self) ha
  rcases append_eq_append_iff.1 h with ⟨between, rfl, heq⟩ | ⟨between, rfl, heq⟩
  · obtain rfl := hshort hxs' heq
    simpa using heq
  · obtain rfl := hshort hxs heq
    simpa using heq.symm

/-- A word without an element is on one side of it. -/
theorem infix_of_infix_append_cons {α : Type} {a : α} {word xs ys : List α} (ha : a ∉ word)
    (h : word <:+: xs ++ a :: ys) : word <:+: xs ∨ word <:+: ys := by
  obtain ⟨before, after, h⟩ := h
  rcases append_eq_append_iff.1 h with ⟨more, rfl, -⟩ | ⟨rest, hrest, hys⟩
  · exact .inl ⟨before, more, rfl⟩
  · cases rest with
    | nil => exact .inl ⟨before, [], by simpa using hrest⟩
    | cons b rest =>
      obtain ⟨rfl, rfl⟩ := List.cons.inj hys
      rcases append_eq_append_iff.1 hrest with ⟨more, rfl, hword⟩ | ⟨more, rfl, hmore⟩
      · exact absurd (hword ▸ mem_append_right _ mem_cons_self) ha
      · cases more with
        | nil => exact absurd ((show a :: rest = word from hmore) ▸ mem_cons_self) ha
        | cons c more =>
          obtain ⟨-, rfl⟩ := List.cons.inj hmore
          exact .inr ⟨more, after, rfl⟩

namespace Text

theorem bytes_join_comma (first : Text) (rest : List Text) :
    (join "," (first :: rest)).bytes = first.bytes ++ rest.flatMap fun part => 44 :: part.bytes :=
  bytes_join_cons "," first rest

/-- Lists of names without commas are told apart with commas between the names. -/
theorem join_comma_inj {first first' : Text} {rest rest' : List Text}
    (hplain : ∀ part ∈ first :: rest, 44 ∉ part.bytes)
    (hplain' : ∀ part ∈ first' :: rest', 44 ∉ part.bytes)
    (h : (join "," (first :: rest)).bytes = (join "," (first' :: rest')).bytes) :
    first :: rest = first' :: rest' := by
  induction rest generalizing first first' rest' with
  | nil =>
    cases rest' with
    | nil =>
      simp only [bytes_join_comma, flatMap_nil, append_nil] at h
      rw [ext_bytes h]
    | cons part rest' =>
      simp only [bytes_join_comma, flatMap_nil, append_nil, flatMap_cons,
        cons_append] at h
      exact absurd (h ▸ mem_append_right _ mem_cons_self)
        (hplain first mem_cons_self)
  | cons part rest ih =>
    cases rest' with
    | nil =>
      simp only [bytes_join_comma, flatMap_nil, append_nil, flatMap_cons,
        cons_append] at h
      exact absurd (h ▸ mem_append_right _ mem_cons_self)
        (hplain' first' mem_cons_self)
    | cons part' rest' =>
      simp only [bytes_join_comma, flatMap_cons, cons_append] at h
      obtain ⟨hfirst, hrest⟩ := append_cons_cancel (hplain first mem_cons_self)
        (hplain' first' mem_cons_self) h
      rw [ext_bytes hfirst, ih (fun p hp => hplain p (mem_cons_of_mem _ hp))
        (fun p hp => hplain' p (mem_cons_of_mem _ hp))
        (by rw [bytes_join_comma, bytes_join_comma, hrest])]

/-- A word without commas that is in none of the names is not in the list of them. -/
theorem not_infix_join_comma {word : List UInt8} (hword : 44 ∉ word) (hne : word ≠ [])
    (h : ∀ name ∈ names, ¬ word <:+: name.bytes) :
    ¬ word <:+: (join "," names).bytes := by
  cases names with
  | nil => exact fun hinfix => hne (eq_nil_of_infix_nil hinfix)
  | cons first rest =>
    induction rest generalizing first with
    | nil =>
      rw [bytes_join_comma, flatMap_nil, append_nil]
      exact h first mem_cons_self
    | cons part rest ih =>
      rw [bytes_join_comma, flatMap_cons, cons_append]
      intro hinfix
      rcases infix_of_infix_append_cons hword hinfix with hfirst | hrest
      · exact h first mem_cons_self hfirst
      · exact ih part (fun name hname => h name (mem_cons_of_mem _ hname))
          (by rw [bytes_join_comma]; exact hrest)

theorem not_mem_join_comma {b : UInt8} (hb : b ≠ 44) (h : ∀ name ∈ names, b ∉ name.bytes) :
    b ∉ (join "," names).bytes := by
  cases names with
  | nil => exact not_mem_nil
  | cons first rest =>
    rw [bytes_join_comma, mem_append, mem_flatMap]
    rintro (hfirst | ⟨part, hpart, hmem⟩)
    · exact h first mem_cons_self hfirst
    · rcases mem_cons.1 hmem with rfl | hmem
      · exact hb rfl
      · exact h part (mem_cons_of_mem _ hpart) hmem

/-! ## Decimal spellings -/

theorem bytes_ofInt (n : Int) :
    (ofInt n).bytes = if 0 ≤ n then (ofNat n.toNat).bytes else 45 :: (ofNat (-n).toNat).bytes := by
  have hspelling : ofInt n = String.toByteArray (Int.repr n) := rfl
  rw [hspelling, Int.repr_eq_if]
  split
  · rfl
  · rw [String.toByteArray_append, bytes_append]
    rfl

theorem semicolon_not_mem_ofInt (n : Int) : 59 ∉ (ofInt n).bytes := by
  have hdigits : ∀ k : Nat, 59 ∉ (ofNat k).bytes := fun k hmem =>
    absurd (isDigit_of_mem_ofNat hmem) (by decide)
  rw [bytes_ofInt]
  split
  · exact hdigits _
  · simp [hdigits]

theorem ofInt_injective {m n : Int} (h : (ofInt m).bytes = (ofInt n).bytes) : m = n := by
  have hminus : ∀ k : Nat, 45 ∉ (ofNat k).bytes := fun k hmem =>
    absurd (isDigit_of_mem_ofNat hmem) (by decide)
  rw [bytes_ofInt, bytes_ofInt] at h
  split at h <;> split at h
  · have := ofNat_injective (ext_bytes h)
    omega
  · exact absurd (h ▸ mem_cons_self) (hminus _)
  · exact absurd (h ▸ mem_cons_self) (hminus _)
  · have := ofNat_injective (ext_bytes (List.cons.inj h).2)
    omega

end Text

/-! ## Options -/

namespace Optimizer

theorem mem_defaultPasses_of_pass? {threshold : Nat} {name : Text} {pass : Pass}
    (h : pass? threshold name = some pass) : name ∈ defaultPasses := by
  have hknown : ∀ name ∈ ["constprop", "cse", "dce", "inline", "tailcall"].map String.toUTF8,
      name ∈ defaultPasses := by decide
  have hbeq := find?_some h
  obtain rfl : pass.name = name := eq_of_beq hbeq
  exact hknown _ (mem_map_of_mem (f := Pass.name) (mem_of_find?_eq_some h))

/-- Passes are found by the names of passes only. -/
theorem mem_defaultPasses_of_passesNamed {threshold : Nat} {passes : List Pass}
    (h : passesNamed threshold names = .ok passes) : ∀ name ∈ names, name ∈ defaultPasses := by
  induction names generalizing passes with
  | nil => exact fun _ hname => absurd hname not_mem_nil
  | cons name rest ih =>
    unfold passesNamed at h
    split at h
    · cases h
    · rename_i pass hpass
      cases hrest : passesNamed threshold rest with
      | error message =>
        rw [hrest] at h
        cases h
      | ok others => exact forall_mem_cons.2 ⟨mem_defaultPasses_of_pass? hpass, ih hrest⟩

theorem defaultPasses_plain :
    ∀ name ∈ defaultPasses, 44 ∉ name.bytes ∧ 59 ∉ name.bytes ∧ name.bytes ≠ [] := by
  decide

/-- Lists of passes are told apart with commas between their names. -/
theorem names_inj {names' : List Text} (h : ∀ name ∈ names, name ∈ defaultPasses)
    (h' : ∀ name ∈ names', name ∈ defaultPasses)
    (heq : (Text.join "," names).bytes = (Text.join "," names').bytes) : names = names' := by
  have hplain : ∀ {names : List Text}, (∀ name ∈ names, name ∈ defaultPasses) →
      ∀ name ∈ names, 44 ∉ name.bytes := fun hnames name hname =>
    (defaultPasses_plain name (hnames name hname)).1
  have hnone : ∀ {first : Text} {rest : List Text}, first ∈ defaultPasses →
      (Text.join "," (first :: rest)).bytes ≠ [] := fun hfirst hnil => by
    rw [bytes_join_comma, append_eq_nil_iff] at hnil
    exact (defaultPasses_plain _ hfirst).2.2 hnil.1
  cases names with
  | nil =>
    cases names' with
    | nil => rfl
    | cons first' rest' => exact absurd heq.symm (hnone (h' first' mem_cons_self))
  | cons first rest =>
    cases names' with
    | nil => exact absurd heq (hnone (h first mem_cons_self))
    | cons first' rest' => exact join_comma_inj (hplain h) (hplain h') heq

end Optimizer

namespace Options

variable {o : Options}

/-- The passes as a fingerprint names them. -/
def passText (o : Options) : Text :=
  if o.optimize then Text.join "," (o.passes.getD []) else "off"

theorem fingerprint_eq (o : Options) :
    o.fingerprint = "opt=" ++ o.passText ++ ";iter=" ++ Text.ofInt o.maxRounds ++ ";inline=" ++
      Text.ofInt o.inlineThreshold := rfl

/-- Options that are accepted name passes only. -/
theorem mem_defaultPasses {optimizer : Option Optimizer} (h : o.optimizer = .ok optimizer)
    (hoptimize : o.optimize = true) :
    ∀ name ∈ o.passes.getD [], name ∈ Optimizer.defaultPasses := by
  cases hpasses : o.passes with
  | none => exact fun _ hname => absurd hname not_mem_nil
  | some names =>
    unfold Options.optimizer Optimizer.ofNames at h
    rw [if_pos hoptimize, hpasses, Option.getD_some] at h
    cases hnamed : Optimizer.passesNamed
        (Optimizer.positiveOr Optimizer.defaultThreshold o.inlineThreshold) names with
    | error message =>
      rw [hnamed] at h
      cases h
    | ok passes => exact Optimizer.mem_defaultPasses_of_passesNamed hnamed

theorem semicolon_not_mem_passText {optimizer : Option Optimizer}
    (h : o.optimizer = .ok optimizer) : 59 ∉ o.passText.bytes := by
  unfold passText
  split
  · rename_i hoptimize
    exact not_mem_join_comma (by decide) fun name hname =>
      (Optimizer.defaultPasses_plain name (mem_defaultPasses h hoptimize name hname)).2.1
  · decide

/-- No list of passes looks like the word that stands for no optimizer. -/
theorem join_ne_off (h : ∀ name ∈ names, name ∈ Optimizer.defaultPasses) :
    (Text.join "," names).bytes ≠ Text.bytes "off" := by
  intro heq
  cases names with
  | nil => exact absurd heq (by decide)
  | cons first rest =>
    have hsingle : first :: rest = ["off"] := join_comma_inj
      (fun name hname => (Optimizer.defaultPasses_plain name (h name hname)).1)
      (forall_mem_singleton.2 (by decide)) heq
    have hoff := h first mem_cons_self
    rw [(List.cons.inj hsingle).1] at hoff
    exact absurd hoff (by decide)

/-- The optimizer is the same if the passes, the number of rounds and the threshold are spelled the
same, unless one list of passes is empty and the other is left to the optimizer. -/
theorem optimizer_congr {o' : Options} {optimizer optimizer' : Option Optimizer}
    (h : o.optimizer = .ok optimizer) (h' : o'.optimizer = .ok optimizer')
    (hleft : o.optimize = true → (o.passes = none ↔ o'.passes = none))
    (hpasses : o.passText.bytes = o'.passText.bytes) (hrounds : o.maxRounds = o'.maxRounds)
    (hthreshold : o.inlineThreshold = o'.inlineThreshold) : optimizer = optimizer' := by
  unfold passText at hpasses
  cases hon : o.optimize <;> cases hon' : o'.optimize
  · simp only [Options.optimizer, hon, hon', Bool.false_eq_true, if_false] at h h'
    exact Except.ok.inj (h.symm.trans h')
  · simp only [hon, hon', Bool.false_eq_true, if_false, if_true] at hpasses
    exact absurd hpasses.symm (join_ne_off (mem_defaultPasses h' hon'))
  · simp only [hon, hon', Bool.false_eq_true, if_false, if_true] at hpasses
    exact absurd hpasses (join_ne_off (mem_defaultPasses h hon))
  · simp only [hon, hon', if_true] at hpasses
    have hnames := Optimizer.names_inj (mem_defaultPasses h hon) (mem_defaultPasses h' hon') hpasses
    have hsame : o.passes = o'.passes := by
      cases hp : o.passes <;> cases hp' : o'.passes <;> simp_all
    simp only [Options.optimizer, hon, hon', if_true, hsame, hrounds, hthreshold] at h h'
    exact Except.ok.inj (h.symm.trans h')

end Options

/-! ## Engines -/

namespace Engine

/-- An engine as a host sets it up: created with options, and then with functions of the host. -/
inductive SetUp : Engine → Prop
  | created {options : Options} {e : Engine} (create : create options = .ok e) : SetUp e
  | registered {e : Engine} (setUp : SetUp e) (n : Native) : SetUp (e.register n)

namespace SetUp

variable {e : Engine}

theorem optimizer (h : e.SetUp) : e.options.optimizer = .ok e.optimizer := by
  induction h with
  | created create =>
    obtain ⟨optimizer, hoptimizer, heq⟩ := Program.except_bind_ok create
    cases heq
    exact hoptimizer
  | registered _ _ ih => exact ih

theorem ready (h : e.SetUp) : e.Ready := by
  induction h with
  | created create => exact ready_create create
  | registered _ n ih => exact ih.register n

end SetUp

/-- The text of a key as its parts, each in front of the one behind it. -/
theorem bytes_preimage_parts (e : Engine) (file source : Text) :
    (e.preimage file source).bytes =
      Text.bytes (release ++ Text.ofBytes [0, Image.version, 0] ++ "opt=") ++
        (e.options.passText.bytes ++ 59 :: (Text.bytes "iter=" ++
          ((Text.ofInt e.options.maxRounds).bytes ++ 59 :: (Text.bytes "inline=" ++
            ((Text.ofInt e.options.inlineThreshold).bytes ++ 59 :: (Text.bytes "natives=" ++
              Cache.particulars e.machine.natives.names file source)))))) := by
  rw [bytes_preimage, Options.fingerprint_eq]
  simp only [bytes_append, append_assoc]
  rfl

/-- An optimizer works on the code that there is without one. -/
theorem generate_of_optimizer {base : Engine} {optimizer : Optimizer} {r : Reading} {p : Program}
    (h : e.optimizer = some optimizer) (hbase : base.optimizer = none)
    (hnames : e.machine.natives.names = base.machine.natives.names) (hp : base.generate r = .ok p) :
    e.generate r = .ok (optimizer.optimize p) := by
  have hplain : { e with optimizer := none }.generate r = .ok p := by
    rw [← hp]
    refine generate_congr ?_ ?_ r
    · exact hbase.symm
    · exact hnames
  unfold generate at hplain ⊢
  rw [h]
  split at hplain
  · cases hplain
  · split at hplain <;> simp_all

end Engine

namespace Job

/-- The parts of the text of a job's key can be told apart. -/
structure Plain (j : Job) : Prop where
  file : 0 ∉ j.file.bytes
  commas : ∀ name ∈ j.names, 44 ∉ name.bytes
  marks : ∀ name ∈ j.names, ¬ Text.bytes ";file=" <:+: name.bytes

/-- Plain jobs with the same particulars have the same names, file and source. -/
theorem Plain.particulars_inj {j k : Job} (hj : j.Plain) (hk : k.Plain) (hjsome : j.names ≠ [])
    (hksome : k.names ≠ [])
    (h : Cache.particulars j.names j.file j.source = Cache.particulars k.names k.file k.source) :
    j.names = k.names ∧ j.file = k.file ∧ j.source = k.source := by
  have hmark : Text.bytes ";file=" = 59 :: Text.bytes "file=" := by decide
  unfold Cache.particulars at h
  rw [hmark] at h
  obtain ⟨hnames, hrest⟩ := append_word_cancel (by decide)
    (not_infix_join_comma (by decide) (cons_ne_nil _ _) (hmark ▸ hj.marks))
    (not_infix_join_comma (by decide) (cons_ne_nil _ _) (hmark ▸ hk.marks)) h
  obtain ⟨hfile, hsource⟩ := append_cons_cancel hj.file hk.file hrest
  refine ⟨?_, ext_bytes hfile, ext_bytes hsource⟩
  have hjplain := hj.commas
  have hkplain := hk.commas
  revert hnames hjplain hkplain
  obtain ⟨first, rest, hjnames⟩ := exists_cons_of_ne_nil hjsome
  obtain ⟨first', rest', hknames⟩ := exists_cons_of_ne_nil hksome
  rw [hjnames, hknames]
  exact fun hnames hjplain hkplain => join_comma_inj hjplain hkplain hnames

/-- **The text of a key determines the code.** Two programs, each for an engine of its own with its own
options and host functions, have the same code if the texts of their keys are the same, and as long as
the parts of these texts can be told apart: no file has a zero byte in its name, no host function a
comma or the word `;file=`, and the passes are left to the optimizer on both engines or on neither. -/
theorem code_eq_of_preimage_eq {j k : Job} (hj : j.engine.SetUp) (hk : k.engine.SetUp)
    (hjplain : j.Plain) (hkplain : k.Plain)
    (hpasses : j.engine.options.optimize = true →
      (j.engine.options.passes = none ↔ k.engine.options.passes = none))
    (h : j.preimage = k.preimage) : j.code = k.code := by
  have hbytes := congrArg Text.bytes h
  unfold preimage at hbytes
  rw [Engine.bytes_preimage_parts, Engine.bytes_preimage_parts, append_cancel_left_eq] at hbytes
  obtain ⟨hpassText, hbytes⟩ := append_cons_cancel
    (Options.semicolon_not_mem_passText hj.optimizer) (Options.semicolon_not_mem_passText hk.optimizer)
    hbytes
  rw [append_cancel_left_eq] at hbytes
  obtain ⟨hrounds, hbytes⟩ := append_cons_cancel (semicolon_not_mem_ofInt _)
    (semicolon_not_mem_ofInt _) hbytes
  rw [append_cancel_left_eq] at hbytes
  obtain ⟨hthreshold, hbytes⟩ := append_cons_cancel (semicolon_not_mem_ofInt _)
    (semicolon_not_mem_ofInt _) hbytes
  rw [append_cancel_left_eq] at hbytes
  obtain ⟨hnames, hfile, hsource⟩ :=
    hjplain.particulars_inj hkplain hj.ready.names hk.ready.names hbytes
  have hoptimizer := Options.optimizer_congr hj.optimizer hk.optimizer hpasses hpassText
    (ofInt_injective hrounds) (ofInt_injective hthreshold)
  unfold code reading
  rw [Engine.generate_congr hoptimizer hnames, Engine.read_congr hnames, hfile, hsource]

/-- An engine with other options, which generates the same code. -/
def shallow : Engine where
  options := { optimize := false, passes := none, maxFrames := 5 }
  machine := { natives := Natives.standard, maxFrames := 5 }

theorem setUp_unoptimized : Engine.unoptimized.SetUp := .created Engine.create_unoptimized

theorem setUp_shallow : shallow.SetUp :=
  .created (rfl : Engine.create { optimize := false, passes := none, maxFrames := 5 } = .ok shallow)

theorem plain_len (h : e.machine.natives.names = Natives.standard.names) :
    Plain ⟨e, "main", "len"⟩ := by
  refine ⟨show 0 ∉ Text.bytes "main" by decide, ?_, ?_⟩
  all_goals
    unfold names
    rw [h]
    decide

/-- An engine with a replaced function and one with a limit on its frames: the code of `len` has the
same key on both, and is the same. -/
theorem code_eq_of_preimage_eq_shallow :
    (Engine.unoptimized.register Engine.otherLen).SetUp ∧ shallow.SetUp ∧
    Plain ⟨Engine.unoptimized.register Engine.otherLen, "main", "len"⟩ ∧
    Plain ⟨shallow, "main", "len"⟩ ∧
    preimage ⟨Engine.unoptimized.register Engine.otherLen, "main", "len"⟩ =
      preimage ⟨shallow, "main", "len"⟩ ∧
    code ⟨Engine.unoptimized.register Engine.otherLen, "main", "len"⟩ =
      code ⟨shallow, "main", "len"⟩ := by
  have hplain := plain_len (e := Engine.unoptimized.register Engine.otherLen) Engine.names_otherLen
  have hplain' := plain_len (e := shallow) rfl
  have hpreimage : preimage ⟨Engine.unoptimized.register Engine.otherLen, "main", "len"⟩ =
      preimage ⟨shallow, "main", "len"⟩ := by decide +kernel
  exact ⟨setUp_unoptimized.registered _, setUp_shallow, hplain, hplain', hpreimage,
    code_eq_of_preimage_eq (setUp_unoptimized.registered _) setUp_shallow hplain hplain'
      (fun hoptimize => absurd hoptimize Bool.false_ne_true) hpreimage⟩

/-! ## Programs with the same key and different code -/

/-- Two programs have the same key and different code. -/
structure Collide (j k : Job) : Prop where
  setUp : j.engine.SetUp
  setUp' : k.engine.SetUp
  preimage : j.preimage = k.preimage
  code : j.code ≠ k.code

/-- Codes differ if something about them does. -/
theorem code_ne {α : Type} {j k : Job} (view : Program → α) {a b : Option α}
    (hj : j.code.toOption.map view = a) (hk : k.code.toOption.map view = b) (hne : a ≠ b) :
    j.code ≠ k.code := by
  intro h
  rw [h] at hj
  exact hne (hj.symm.trans hk)

/-- A zero byte in the name of a file: what is behind it looks like the beginning of the source. -/
theorem collide_of_zero_byte :
    Collide ⟨Engine.unoptimized, "f\x00out('2')", "out('1')"⟩
      ⟨Engine.unoptimized, "f", "out('2')\x00out('1')"⟩ where
  setUp := setUp_unoptimized
  setUp' := setUp_unoptimized
  preimage := by decide +kernel
  code := by
    have hone : (code ⟨Engine.unoptimized, "f\x00out('2')", "out('1')"⟩).toOption.map
        (·.root.constants) = some #[.native 0, .string "1"] := by cbv
    have htwo : (code ⟨Engine.unoptimized, "f", "out('2')\x00out('1')"⟩).toOption.map
        (·.root.constants) = some #[.native 0, .string "2"] := by cbv
    exact code_ne _ hone htwo (by decide)

/-- A function of the host. -/
def stub (name : Text) : Native := ⟨name, fun _ => return .answer .empty⟩

/-- The word in front of the file in the name of a host function. -/
theorem collide_of_mark :
    Collide ⟨Engine.unoptimized.register (stub "a"), "b;file=c", "1"⟩
      ⟨Engine.unoptimized.register (stub "a;file=b"), "c", "1"⟩ where
  setUp := setUp_unoptimized.registered _
  setUp' := setUp_unoptimized.registered _
  preimage := by decide +kernel
  code := by
    have hlong : (code ⟨Engine.unoptimized.register (stub "a"), "b;file=c", "1"⟩).toOption.map
        (·.root.name) = some "b;file=c" := by cbv
    have hshort : (code ⟨Engine.unoptimized.register (stub "a;file=b"), "c", "1"⟩).toOption.map
        (·.root.name) = some "c" := by cbv
    exact code_ne _ hlong hshort (by decide)

/-- A comma in the name of a host function: it looks like two names. -/
theorem collide_of_comma :
    Collide ⟨(Engine.unoptimized.register (stub "a")).register (stub "b"), "f", "b"⟩
      ⟨Engine.unoptimized.register (stub "a,b"), "f", "b"⟩ where
  setUp := (setUp_unoptimized.registered _).registered _
  setUp' := setUp_unoptimized.registered _
  preimage := by decide +kernel
  code := by
    have htwo : (code ⟨(Engine.unoptimized.register (stub "a")).register (stub "b"), "f",
        "b"⟩).toOption.map (·.root.name) = some "f" := by cbv
    have hone : (code ⟨Engine.unoptimized.register (stub "a,b"), "f", "b"⟩).toOption.map
        (·.root.name) = none := by cbv
    exact code_ne _ htwo hone (by decide)

/-- The code of the program `1, 2`. -/
def pairCode : Program :=
  ⟨#[{ name := "f", slots := 2, ret := 1
       constants := #[.number ⟨4607182418800017408⟩, .number ⟨4611686018427387904⟩]
       code := #[{ op := .loadConstant, position := ⟨1, 1⟩ },
         { op := .loadConstant, dest := 1, k := 1, position := ⟨1, 4⟩ }] }]⟩

/-- The same code without the number that nothing reads. -/
def prunedPairCode : Program :=
  ⟨#[{ pairCode.root with
       code := #[{ op := .loadConstant, dest := 1, k := 1, position := ⟨1, 4⟩ }] }]⟩

theorem readCount_pairCode : (Flow.ofBlock pairCode pairCode.root).readCount 0 = 0 ∧
    (Flow.ofBlock pairCode pairCode.root).readCount 1 = 1 := by
  constructor
  all_goals
    simp [Flow.ofBlock, Flow.readCount, Flow.addReads, Flow.add, pairCode, Program.root, Program.block,
      Program.reads, Instruction.writes?, Opcode.isBranch, Std.HashMap.getElem?_alter]

theorem pruned_pairCode : Pruning.pass.result? pairCode = some prunedPairCode := by
  obtain ⟨hfirst, hsecond⟩ := readCount_pairCode
  have hreachable : Pruning.reachable pairCode.root = some #[true, true] := rfl
  have hflow : Pruning.withoutUnreachable pairCode pairCode.root #[true, true] =
      Flow.ofBlock pairCode pairCode.root := rfl
  have hrun : Pruning.pass.run pairCode pairCode.root = some (prunedPairCode.root, true) := by
    simp only [Pruning.pass]
    generalize Flow.ofBlock pairCode pairCode.root = flow at *
    have hshadowed : Pruning.removeAllShadowed flow pairCode.root = some (pairCode.root, false) := rfl
    have hremoved : Pruning.removeAll pairCode pairCode.root (pairCode.root.code.size + 1)
        { keep := #[true, true], flow } = some { keep := #[false, true], flow } := by
      simp [Pruning.removeAll, Pruning.removeAt, Pruning.isRemovable, pairCode, Program.root,
        Program.block, range_succ, hfirst, hsecond, Flow.addReads, Program.reads]
    rw [hshadowed, if_neg (by decide)]
    simp only [Option.bind_eq_bind, Option.bind_some, hreachable, hflow, hremoved]
    rw [if_neg (by simp)]
    rfl
  have himprove : pairCode.places.foldlM Pruning.pass.improve (pairCode, false) =
      some (prunedPairCode, true) := by
    show (Pruning.pass.improve (pairCode, false) 0).bind _ = _
    simp only [Pass.improve]
    rw [show pairCode.block 0 = pairCode.root from rfl, hrun]
    rfl
  simp only [Pass.result?, himprove]
  rw [if_pos (by cbv)]

/-- An engine that is left to choose its passes. -/
def choosing : Engine where
  options := { passes := none, maxRounds := 1 }
  optimizer := some ⟨[Folding.pass, Sharing.pass, Inlining.pass 16, Pruning.pass, TailCalls.pass], 1⟩
  machine := { natives := Natives.standard }

/-- An engine without passes. -/
def passless : Engine where
  options := { passes := some [], maxRounds := 1 }
  optimizer := some ⟨[], 1⟩
  machine := { natives := Natives.standard }

theorem code_pair {optimizer : Optimizer} (hoptimizer : e.optimizer = some optimizer)
    (hnames : e.machine.natives.names = Natives.standard.names) :
    code ⟨e, "f", "1, 2"⟩ = .ok (optimizer.optimize pairCode) := by
  have hcode : Engine.unoptimized.generate (Engine.unoptimized.read "f" "1, 2") = .ok pairCode := by cbv
  have hread : e.read "f" "1, 2" = Engine.unoptimized.read "f" "1, 2" := Engine.read_congr hnames _ _
  unfold code reading
  rw [hread, Engine.generate_of_optimizer hoptimizer rfl hnames hcode]

/-- No passes: they look like passes that are left to the optimizer. -/
theorem collide_of_passes : Collide ⟨choosing, "f", "1, 2"⟩ ⟨passless, "f", "1, 2"⟩ where
  setUp := .created (rfl : Engine.create { passes := none, maxRounds := 1 } = .ok choosing)
  setUp' := .created (rfl : Engine.create { passes := some [], maxRounds := 1 } = .ok passless)
  preimage := by decide +kernel
  code := by
    have hfolding : Folding.pass.result? pairCode = none := by cbv
    have hsharing : Sharing.pass.result? pairCode = none := by cbv
    have hinlining : (Inlining.pass 16).result? pairCode = none := by cbv
    have htailCalls : TailCalls.pass.result? prunedPairCode = none := by cbv
    rw [code_pair (e := choosing) rfl rfl, code_pair (e := passless) rfl rfl]
    simp only [Optimizer.optimize, Pass.rounds, Pass.round, foldl_cons, foldl_nil, hfolding,
      hsharing, hinlining, pruned_pairCode, htailCalls]
    exact fun h => absurd (congrArg (fun code => code.toOption.map (·.root.code.size)) h) (by decide)

end Job

end Inkwell
