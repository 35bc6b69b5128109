import Mathlib
import Inkwell.Proofs.Cache.Keys
import Inkwell.Proofs.Engine.Generated
import Inkwell.Proofs.Image.Exact
import Inkwell.Proofs.Machine.Fuel

/-!
# A cache changes nothing

An engine with a cache answers every request as it would without one, whatever the size of the cache
and whether or not it has a table (`serveAll_withCache`). Three things carry this. The code that an
image is stored for is read back exactly or not at all. An image is found only under the key it was
stored under, and on one engine equal keys are those of the same program for the same host functions.
And the code of a program depends on nothing else: not on what has been run before, nor on what the
host functions of the same names do.
-/

namespace Inkwell

open List

variable {image : Text} {e : Engine}

/-! ## Requests -/

/-- What a host asks of an engine. -/
inductive Request where
  /-- The value of a program in a file. -/
  | run (file source : Text)
  /-- One more function of the host. -/
  | register (n : Native)

/-- What a host gets for a program: a value or all problems, and what has been written. -/
structure Answer where
  result : Except (List Diagnostic) Value
  output : Text

namespace Engine

/-- The answer to a request, if it is about a program, and the engine behind it. -/
def serve (e : Engine) : Request → Option Answer × Engine
  | .run file source =>
    let (result, e) := e.execute (e.read file source)
    let (output, e) := e.takeOutput
    (some { result, output }, e)
  | .register n => (none, e.register n)

/-- The answers to requests one after the other, and the engine behind them. -/
def serveAll (e : Engine) : List Request → List (Option Answer) × Engine
  | [] => ([], e)
  | request :: rest =>
    let (answer, e) := e.serve request
    let (answers, e) := e.serveAll rest
    (answer :: answers, e)

/-- The engine with a cache. -/
def withCache (e : Engine) (c : Cache) : Engine := { e with cache := some c }

/-- An engine with the same options and host functions that has not run anything. -/
def fresh (e : Engine) : Engine where
  options := e.options
  optimizer := e.optimizer
  machine := { natives := e.machine.natives }

end Engine

/-- A program that an engine is asked to compile. -/
structure Job where
  engine : Engine
  file : Text
  source : Text

namespace Job

/-- The program of a job as it is read. -/
def reading (j : Job) : Reading := j.engine.read j.file j.source

/-- The code of the program of a job. -/
def code (j : Job) : Except EngineError Program := j.engine.generate j.reading

/-- The names of the host functions. -/
def names (j : Job) : List Text := j.engine.machine.natives.names

/-- The text whose digest is the key of a job. -/
def preimage (j : Job) : Text := j.engine.preimage j.file j.source

/-- The numbers and sizes in the code of a job have sixty-four bits. -/
structure InWords (j : Job) : Prop where
  names : ∀ name ∈ j.names, name.size < 2 ^ 63
  code : j.reading.isClean = true → ∀ p, j.code = .ok p → p.InWords

end Job

/-- The programs that an engine is asked to compile. -/
def Engine.jobs (e : Engine) : List Request → List Job
  | [] => []
  | .run file source :: rest => ⟨e.fresh, file, source⟩ :: e.jobs rest
  | .register n :: rest => (e.register n).jobs rest

/-! ## Images in a cache -/

namespace Cache

/-- Something holds of all images in a cache and their keys. -/
structure All (P : Text → Text → Prop) (c : Cache) : Prop where
  memory : ∀ entry ∈ c.memory.images, P entry.1 entry.2
  table : ∀ t ∈ c.table, ∀ entry ∈ t.images, P entry.1 entry.2

/-- There is no image in a cache, neither in memory nor in its table. -/
def IsEmpty (c : Cache) : Prop := c.All fun _ _ => False

theorem isEmpty_create (entries : Int) : (create entries none).IsEmpty :=
  ⟨nofun, nofun⟩

theorem mem_of_lookup {images : List (Text × Text)} {key : Text}
    (h : images.lookup key = some image) : (key, image) ∈ images := by
  obtain ⟨before, after, rfl, -⟩ := lookup_eq_some_iff.1 h
  exact mem_append_right _ mem_cons_self

namespace All

variable {P Q : Text → Text → Prop} {c : Cache} {key image : Text}

theorem mono (h : c.All P) (himp : ∀ key image, P key image → Q key image) : c.All Q :=
  ⟨fun entry hentry => himp _ _ (h.memory entry hentry),
    fun t ht entry hentry => himp _ _ (h.table t ht entry hentry)⟩

/-- The memory keeps only images that it had, besides the one put in. -/
theorem memory_put (h : c.All P) (hP : P key image) :
    ∀ entry ∈ (c.memory.put key image).images, P entry.1 entry.2 := by
  intro entry hentry
  rcases mem_cons.1 (mem_of_mem_take hentry) with rfl | hentry
  · exact hP
  · exact h.memory entry (mem_filter.1 hentry).1

theorem put (h : c.All P) (hP : P key image) : (c.put key image).2.All P := by
  have hmemory := h.memory_put hP
  unfold Cache.put
  dsimp only
  split
  · exact ⟨hmemory, h.table⟩
  · rename_i t ht
    split
    · refine ⟨hmemory, fun t' ht' entry hentry => ?_⟩
      cases ht'
      rcases mem_cons.1 hentry with rfl | hentry
      · exact hP
      · exact h.table t ht entry (mem_filter.1 hentry).1
    · exact ⟨hmemory, h.table⟩

/-- What is found under a key has been put there. -/
theorem get (h : c.All P) (key : Text) :
    (∀ image, (c.get key).1 = .ok (some image) → P key image) ∧ (c.get key).2.All P := by
  unfold Cache.get Memory.get Memory.find?
  cases hmemory : c.memory.images.lookup key with
  | some image =>
    have hP : P key image := h.memory _ (mem_of_lookup hmemory)
    exact ⟨fun _ hfound => (by cases hfound; exact hP), h.memory_put hP, h.table⟩
  | none =>
    have hmissed : c.missed.All P := ⟨h.memory, h.table⟩
    cases htable : c.table with
    | none => exact ⟨fun _ hfound => (by cases hfound), hmissed⟩
    | some t =>
      dsimp only
      split
      · exact ⟨fun _ hfound => (by cases hfound), h⟩
      · cases hfind : t.find? key with
        | none => exact ⟨fun _ hfound => (by cases hfound), hmissed⟩
        | some image =>
          have hP : P key image := h.table t htable _ (mem_of_lookup hfind)
          exact ⟨fun _ hfound => (by cases hfound; exact hP), h.memory_put hP,
            fun t' ht' => h.table t' (htable ▸ ht')⟩

end All

end Cache

/-! ## Engines between requests -/

namespace Engine

/-- An engine without a cache between two requests. -/
structure Ready (e : Engine) : Prop where
  uncached : e.cache = none
  passes : ∀ optimizer ∈ e.optimizer, ∀ pass ∈ optimizer.passes, IsPass pass
  registered : e.machine.natives.Registered
  names : e.machine.natives.names ≠ []
  depth : e.machine.depth = e.machine.frames.length

theorem ready_create {options : Options} (h : create options = .ok e) : e.Ready := by
  obtain ⟨optimizer, hoptimizer, heq⟩ := Program.except_bind_ok h
  cases heq
  refine ⟨rfl, ?_, Natives.registered_standard, ?_, rfl⟩
  case refine_2 => exact (by decide : Natives.standard.names ≠ [])
  rintro found hfound
  cases hfound
  exact Options.isPass_of_optimizer hoptimizer

theorem Ready.register {e : Engine} (h : e.Ready) (n : Native) : (e.register n).Ready where
  uncached := h.uncached
  passes := h.passes
  registered := h.registered.register n
  names hnil := h.names (prefix_nil.1 (hnil ▸ Natives.names_prefix_register _ n))
  depth := h.depth

theorem Ready.fresh (h : e.Ready) : e.fresh.Ready where
  uncached := rfl
  passes := h.passes
  registered := h.registered
  names := h.names
  depth := rfl

/-- A run leaves the options and the host functions of an engine as they are. -/
theorem Ready.onMachine (h : e.Ready) (p : Program) :
    (e.onMachine (Machine.run p)).2.Ready ∧ (e.onMachine (Machine.run p)).2.fresh = e.fresh := by
  have hkept := Machine.keeps_perform Machine.enoughFuel (.run p) e.machine (.own h.depth)
  have hafter : ∀ m, Machine.Steady e.machine.settings m →
      Engine.Ready { e with machine := m } ∧ Engine.fresh { e with machine := m } = e.fresh := by
    intro m hm
    have hnatives : m.natives = e.machine.natives := congrArg Machine.Settings.natives hm.settings
    refine ⟨⟨h.uncached, h.passes, ?_, ?_, hm.depth⟩, ?_⟩
    · exact hnatives ▸ h.registered
    · exact hnatives ▸ h.names
    · unfold Engine.fresh
      rw [hnatives]
  unfold Engine.onMachine Machine.run
  dsimp only
  cases hrun : Machine.perform Machine.enoughFuel (.run p) e.machine <;> rw [hrun] at hkept <;>
    exact hafter _ hkept

/-- Without a cache the code of every program is generated. -/
theorem Ready.compile (h : e.Ready) (r : Reading) : e.compile r = (e.generate r, e) := by
  unfold Engine.compile
  rw [h.uncached, Option.isNone_none, Bool.or_true]
  rfl

theorem Ready.evaluate (h : e.Ready) (r : Reading) :
    (e.evaluate r).2.Ready ∧ (e.evaluate r).2.fresh = e.fresh := by
  unfold Engine.evaluate
  rw [h.compile]
  cases e.generate r with
  | ok p => exact h.onMachine p
  | error error => exact ⟨h, rfl⟩

theorem Ready.execute (h : e.Ready) (r : Reading) :
    (e.execute r).2.Ready ∧ (e.execute r).2.fresh = e.fresh := by
  have hevaluate := h.evaluate r
  unfold Engine.execute
  split
  · cases hrun : e.evaluate r with
    | mk result after =>
      rw [hrun] at hevaluate
      cases result with
      | ok v => exact hevaluate
      | error error => exact hevaluate
  · exact ⟨h, rfl⟩

theorem Ready.takeOutput (h : e.Ready) : e.takeOutput.2.Ready :=
  ⟨h.uncached, h.passes, h.registered, h.names, h.depth⟩

theorem fresh_takeOutput (e : Engine) : e.takeOutput.2.fresh = e.fresh := rfl

theorem serve_run (e : Engine) (file source : Text) :
    e.serve (.run file source) =
      (some ⟨(e.execute (e.read file source)).1, (e.execute (e.read file source)).2.takeOutput.1⟩,
        (e.execute (e.read file source)).2.takeOutput.2) := by
  cases hrun : e.execute (e.read file source) with
  | mk result after => simp only [serve, hrun]

theorem Ready.serve_run (h : e.Ready) (file source : Text) :
    (e.serve (.run file source)).2.Ready ∧ (e.serve (.run file source)).2.fresh = e.fresh := by
  rw [Engine.serve_run]
  obtain ⟨hready, hfresh⟩ := h.execute (e.read file source)
  exact ⟨hready.takeOutput, (fresh_takeOutput _).trans hfresh⟩

/-- The programs that are asked for do not depend on what has been run. -/
theorem jobs_congr {e' : Engine} (h : e'.fresh = e.fresh) (requests : List Request) :
    e'.jobs requests = e.jobs requests := by
  induction requests generalizing e e' with
  | nil => rfl
  | cons request rest ih =>
    cases request with
    | run file source =>
      unfold jobs
      rw [h, ih h]
    | register n => exact ih (congrArg (fun e => (e.register n).fresh) h)

/-! ## Runs with and without a cache -/

theorem onMachine_withCache (e : Engine) (c : Cache) (action : Action Value) :
    (e.withCache c).onMachine action = ((e.onMachine action).1, (e.onMachine action).2.withCache c) := by
  unfold onMachine withCache
  dsimp only
  cases action e.machine <;> rfl

theorem takeOutput_withCache (e : Engine) (c : Cache) :
    (e.withCache c).takeOutput = (e.takeOutput.1, e.takeOutput.2.withCache c) := rfl

/-- With the same code, a cache makes no difference to the value or the problems of a program. -/
theorem execute_withCache (h : e.Ready) {c c' : Cache} {r : Reading}
    (hcompile : r.isClean = true → (e.withCache c).compile r = (e.generate r, e.withCache c'))
    (hdirty : r.isClean = false → c' = c) :
    (e.withCache c).execute r = ((e.execute r).1, (e.execute r).2.withCache c') := by
  unfold execute
  split
  · rename_i hclean
    unfold evaluate
    rw [hcompile hclean, h.compile]
    cases e.generate r with
    | ok p =>
      dsimp only
      rw [onMachine_withCache]
      cases e.onMachine (Machine.run p) with
      | mk result after => cases result <;> rfl
    | error error => rfl
  · rename_i hproblems
    rw [hdirty (by simpa using hproblems)]

end Engine

/-! ## Images of programs that were asked for -/

/-- An engine was asked for a program before it has come to be as it is. -/
structure Job.Precedes (j : Job) (e : Engine) : Prop where
  ready : j.engine.Ready
  options : e.options = j.engine.options
  optimizer : e.optimizer = j.engine.optimizer
  names : j.names <+: e.machine.natives.names

/-- An image under a key is that of a program which an engine was asked for before. -/
def Engine.Stored (e : Engine) (asked : List Job) (key image : Text) : Prop :=
  ∃ j ∈ asked, j.Precedes e ∧ j.engine.key j.file j.source = key ∧ j.reading.isClean = true ∧
    ∃ p, j.code = .ok p ∧ Image.encode j.names p = .ok image

namespace Engine

variable {c : Cache}
variable {e : Engine} {asked : List Job} {file source : Text}

theorem Stored.register {key image : Text} (h : e.Stored asked key image) (n : Native) :
    (e.register n).Stored asked key image := by
  obtain ⟨j, hj, ⟨hready, hoptions, hoptimizer, hnames⟩, hstored⟩ := h
  exact ⟨j, hj, ⟨hready, hoptions, hoptimizer, hnames.trans (Natives.names_prefix_register _ n)⟩, hstored⟩

theorem Stored.of_fresh_eq {e' : Engine} {key : Text} (h : e.Stored asked key image)
    (hfresh : e'.fresh = e.fresh) : e'.Stored asked key image := by
  obtain ⟨j, hj, ⟨hready, hoptions, hoptimizer, hnames⟩, hstored⟩ := h
  have hnatives : e'.machine.natives = e.machine.natives := congrArg (·.machine.natives) hfresh
  refine ⟨j, hj, ⟨hready, ?_, ?_, ?_⟩, hstored⟩
  · exact (congrArg (·.options) hfresh).trans hoptions
  · exact (congrArg (·.optimizer) hfresh).trans hoptimizer
  · exact hnatives ▸ hnames

section Requests

variable (hfiles : ∀ j ∈ asked, 0 ∉ j.file.bytes) (hwords : ∀ j ∈ asked, j.InWords)
  (hdigests : ∀ j ∈ asked, ∀ k ∈ asked,
    j.preimage.digest = k.preimage.digest → j.preimage = k.preimage)

include hfiles hwords hdigests in
/-- The code in an image found under the key of a program is the code of that program. -/
theorem generate_of_stored (hasked : ⟨e.fresh, file, source⟩ ∈ asked) {q : Program}
    (hstored : e.Stored asked (e.key file source) image)
    (hdecode : Image.decode e.machine.natives.names image = .ok q) :
    e.generate (e.read file source) = .ok q := by
  obtain ⟨j, hj, hbefore, hkey, hclean, p, hcode, hencode⟩ := hstored
  have hpreimage : j.preimage = e.preimage file source :=
    hdigests j hj ⟨e.fresh, file, source⟩ hasked (preimage_of_key_eq hkey)
  obtain ⟨hnames, rfl, rfl⟩ := preimage_eq hbefore.options hbefore.ready.names hbefore.names
    (hfiles j hj) (hfiles _ hasked) hpreimage
  have hsame : e.generate (e.read j.file j.source) = .ok p := by
    rw [generate_congr hbefore.optimizer hnames, read_congr hnames]
    exact hcode
  obtain ⟨hbuilt, hvalid⟩ := sound_of_generate hbefore.ready.passes hclean hcode
  rw [hnames] at hdecode
  rw [Image.decode_of_encode hbefore.ready.registered (hwords j hj).names hbuilt.ordered
    hbuilt.places_eq hvalid ((hwords j hj).code hclean p hcode) hencode hdecode]
  exact hsame

/-- What is found in the cache, if anything, is code that an image holds. -/
theorem lookup_withCache {P : Text → Text → Prop} (hc : c.All P) (key : Text) :
    ∃ c', c'.All P ∧ ((e.withCache c).lookup key).2 = e.withCache c' ∧
      ∀ q, ((e.withCache c).lookup key).1 = some q →
        ∃ image, P key image ∧ Image.decode e.machine.natives.names image = .ok q := by
  obtain ⟨hfound, hafter⟩ := hc.get key
  refine ⟨(c.get key).2, hafter, rfl, fun q hq => ?_⟩
  simp only [lookup, withCache] at hq
  split at hq
  · rename_i image himage
    refine ⟨image, hfound image himage, ?_⟩
    cases hdecode : Image.decode e.machine.natives.names image with
    | error message => rw [hdecode] at hq; cases hq
    | ok found => rw [hdecode] at hq; cases hq; rfl
  · cases hq

/-- The image that is stored for the code of a program. -/
theorem keep_withCache (h : e.Ready) (hasked : ⟨e.fresh, file, source⟩ ∈ asked)
    (hclean : (e.read file source).isClean = true) {p : Program}
    (hcode : e.generate (e.read file source) = .ok p) (hc : c.All (e.Stored asked)) :
    ∃ c', c'.All (e.Stored asked) ∧
      (e.withCache c).keep (e.key file source) p = e.withCache c' := by
  cases hencode : Image.encode e.machine.natives.names p with
  | error message =>
    refine ⟨c, hc, ?_⟩
    simp only [keep, withCache, hencode]
  | ok image =>
    refine ⟨(c.put (e.key file source) image).2, hc.put ?_, ?_⟩
    · exact ⟨⟨e.fresh, file, source⟩, hasked, ⟨h.fresh, rfl, rfl, prefix_rfl⟩, rfl, hclean, p,
        hcode, hencode⟩
    · simp only [keep, withCache, hencode]

/-- The code of a program is what would be generated, whether or not it is found, and its image is
stored if it is not. -/
theorem compile_withCache (h : e.Ready) (hasked : ⟨e.fresh, file, source⟩ ∈ asked)
    (hclean : (e.read file source).isClean = true)
    (hgenerate : ∀ image q, e.Stored asked (e.key file source) image → Image.decode
      e.machine.natives.names image = .ok q → e.generate (e.read file source) = .ok q)
    (hc : c.All (e.Stored asked)) :
    ∃ c', c'.All (e.Stored asked) ∧
      (e.withCache c).compile (e.read file source) =
        (e.generate (e.read file source), e.withCache c') := by
  have hprogram : ((e.read file source).script.isNone || (e.withCache c).cache.isNone) = false := by
    rw [← Option.not_isSome, (Bool.and_eq_true_iff.1 hclean).1]
    rfl
  have hkey : (e.withCache c).key file source = e.key file source := rfl
  have hsame (c' : Cache) : (e.withCache c').generate (e.read file source) =
      e.generate (e.read file source) := rfl
  obtain ⟨c', hc', hafter, hfound⟩ := lookup_withCache (e := e) hc (e.key file source)
  unfold compile
  rw [hprogram, if_neg Bool.false_ne_true, Reading.file_read, Reading.source_read, hkey]
  dsimp only
  cases hlookup : (e.withCache c).lookup (e.key file source) with
  | mk found after =>
    rw [hlookup] at hafter hfound
    subst hafter
    cases found with
    | some q =>
      obtain ⟨image, hstored, hdecode⟩ := hfound q rfl
      exact ⟨c', hc', by rw [hgenerate image q hstored hdecode]⟩
    | none =>
      dsimp only
      rw [hsame]
      cases hcode : e.generate (e.read file source) with
      | error error => exact ⟨c', hc', rfl⟩
      | ok p =>
        obtain ⟨c'', hc'', hkeep⟩ := keep_withCache h hasked hclean hcode hc'
        exact ⟨c'', hc'', congrArg (Prod.mk (Except.ok p)) hkeep⟩

include hfiles hwords hdigests in
/-- One request is answered as without a cache, and the images in the cache stay what they should
be. -/
theorem serve_withCache (h : e.Ready) {request : Request} {rest : List Request}
    (hasked : ∀ j ∈ e.jobs (request :: rest), j ∈ asked) (hc : c.All (e.Stored asked)) :
    ∃ c', c'.All ((e.serve request).2.Stored asked) ∧
      (e.withCache c).serve request = ((e.serve request).1, (e.serve request).2.withCache c') := by
  cases request with
  | register n => exact ⟨c, hc.mono fun _ _ hstored => hstored.register n, rfl⟩
  | run file source =>
    have hjob : ⟨e.fresh, file, source⟩ ∈ asked := hasked _ mem_cons_self
    obtain ⟨c', hc', hexecute⟩ : ∃ c', c'.All (e.Stored asked) ∧
        (e.withCache c).execute (e.read file source) =
          ((e.execute (e.read file source)).1, (e.execute (e.read file source)).2.withCache c') := by
      cases hclean : (e.read file source).isClean with
      | false => exact ⟨c, hc, execute_withCache h (by simp [hclean]) fun _ => rfl⟩
      | true =>
        obtain ⟨c', hc', hcompile⟩ := compile_withCache h hjob hclean
          (fun _ _ => generate_of_stored hfiles hwords hdigests hjob) hc
        exact ⟨c', hc', execute_withCache h (fun _ => hcompile) (by simp [hclean])⟩
    have hfresh := (h.serve_run file source).2
    refine ⟨c', hc'.mono fun _ _ hstored => hstored.of_fresh_eq hfresh, ?_⟩
    rw [serve_run, serve_run, show (e.withCache c).read file source = e.read file source from rfl,
      hexecute, takeOutput_withCache]

theorem serveAll_cons (e : Engine) (request : Request) (rest : List Request) :
    e.serveAll (request :: rest) = ((e.serve request).1 :: ((e.serve request).2.serveAll rest).1,
      ((e.serve request).2.serveAll rest).2) := rfl

/-- After a request, the programs that are asked for are those of the other requests. -/
theorem Ready.serve (h : e.Ready) (request : Request) (rest : List Request) :
    (e.serve request).2.Ready ∧
      ∀ j ∈ (e.serve request).2.jobs rest, j ∈ e.jobs (request :: rest) := by
  cases request with
  | register n => exact ⟨h.register n, fun _ hj => hj⟩
  | run file source =>
    obtain ⟨hready, hfresh⟩ := h.serve_run file source
    refine ⟨hready, fun j hj => ?_⟩
    rw [jobs_congr hfresh] at hj
    exact mem_cons_of_mem _ hj

include hfiles hwords hdigests in
/-- Requests are answered as without a cache if the images in the cache are what they should be. -/
theorem serveAll_of_stored (requests : List Request) (h : e.Ready)
    (hasked : ∀ j ∈ e.jobs requests, j ∈ asked) (hc : c.All (e.Stored asked)) :
    ∃ c', (e.withCache c).serveAll requests =
      ((e.serveAll requests).1, (e.serveAll requests).2.withCache c') := by
  induction requests generalizing e c with
  | nil => exact ⟨c, rfl⟩
  | cons request rest ih =>
    obtain ⟨c', hc', hserve⟩ := serve_withCache hfiles hwords hdigests h hasked hc
    obtain ⟨hready, hjobs⟩ := h.serve request rest
    obtain ⟨c'', hrest⟩ := ih hready (fun j hj => hasked j (hjobs j hj)) hc'
    refine ⟨c'', ?_⟩
    rw [serveAll_cons, serveAll_cons, hserve, hrest]

end Requests

/-- **A cache changes nothing.** For an engine and a list of requests, of which each runs a program or
registers a function of the host: with a cache that is empty in the beginning, every request is
answered as without one, with the same value, output and problems, and the engine behind the requests
is the same but for the cache. The cache may be of any size, with a table or without. The files that
are asked for have no zero byte in their names, different programs have different digests, and no
number in the code of the programs needs more than sixty-four bits. -/
theorem serveAll_withCache {options : Options} {e : Engine} (hcreate : create options = .ok e)
    {c : Cache} (hempty : c.IsEmpty) (requests : List Request)
    (hfiles : ∀ j ∈ e.jobs requests, 0 ∉ j.file.bytes)
    (hwords : ∀ j ∈ e.jobs requests, j.InWords)
    (hdigests : ∀ j ∈ e.jobs requests, ∀ k ∈ e.jobs requests,
      j.preimage.digest = k.preimage.digest → j.preimage = k.preimage) :
    ((e.withCache c).serveAll requests).1 = (e.serveAll requests).1 ∧
      ∃ c', ((e.withCache c).serveAll requests).2 = (e.serveAll requests).2.withCache c' := by
  have hstored : c.All (e.Stored (e.jobs requests)) := hempty.mono fun _ _ hfalse => hfalse.elim
  obtain ⟨c', hserve⟩ := serveAll_of_stored hfiles hwords hdigests requests (ready_create hcreate)
    (fun _ hj => hj) hstored
  exact ⟨by rw [hserve], c', by rw [hserve]⟩

/-! ## A function of the host that is replaced -/

/-- An engine that does not optimize. -/
def unoptimized : Engine where
  options := { optimize := false }
  machine := { natives := Natives.standard }

theorem create_unoptimized : create { optimize := false } = .ok unoptimized := rfl

/-- The code of the program `len`. -/
def lenCode : Program :=
  ⟨#[{ name := "main", slots := 1, constants := #[.native 3]
       code := #[{ op := .loadConstant, position := ⟨1, 1⟩ }] }]⟩

theorem generate_len : unoptimized.generate (unoptimized.read "main" "len") = .ok lenCode := by cbv

/-- A function of the host with the name of a standard one. -/
def otherLen : Native := ⟨"len", fun _ => return .answer .empty⟩

/-- Runs of a program before and after a function that it uses is replaced, and one of a program with
a problem. -/
def replacing : List Request :=
  [.run "main" "len", .register otherLen, .run "main" "len", .run "main" "y"]

theorem names_otherLen :
    (unoptimized.register otherLen).machine.natives.names = unoptimized.machine.natives.names :=
  (Natives.names_register _ _).trans (if_pos (by decide))

theorem inWords_replacing : ∀ j ∈ unoptimized.jobs replacing, j.InWords := by
  have hsizes : ∀ name ∈ unoptimized.machine.natives.names, name.size < 2 ^ 63 := by decide
  have hsizes' : ∀ name ∈ (unoptimized.register otherLen).machine.natives.names,
      name.size < 2 ^ 63 := by
    rw [names_otherLen]
    exact hsizes
  have hwords : ∀ p, Except.ok (ε := EngineError) lenCode = .ok p → p.InWords := by
    rintro p ⟨⟩
    decide
  have hproblem : (unoptimized.read "main" "y").isClean = false := by cbv
  have hproblem' : ((unoptimized.register otherLen).read "main" "y").isClean = false := by
    rw [read_congr names_otherLen, hproblem]
  have hcode : (unoptimized.register otherLen).generate
      ((unoptimized.register otherLen).read "main" "len") = .ok lenCode := by
    rw [@generate_congr unoptimized (unoptimized.register otherLen) rfl names_otherLen,
      read_congr names_otherLen, generate_len]
  refine forall_mem_cons.2 ⟨⟨hsizes, fun _ p hp => ?_⟩, forall_mem_cons.2
    ⟨⟨hsizes', fun _ p hp => ?_⟩, forall_mem_singleton.2 ⟨hsizes', fun hclean => ?_⟩⟩⟩
  · exact hwords p (generate_len.symm.trans hp)
  · exact hwords p (hcode.symm.trans hp)
  · exact absurd (hproblem'.symm.trans hclean) Bool.false_ne_true

theorem digests_replacing : ∀ j ∈ unoptimized.jobs replacing, ∀ k ∈ unoptimized.jobs replacing,
    j.preimage.digest = k.preimage.digest → j.preimage = k.preimage := by
  have hpreimages : ∀ j ∈ unoptimized.jobs replacing,
      j.preimage = unoptimized.preimage "main" "len" ∨ j.preimage = unoptimized.preimage "main" "y" := by
    decide +kernel
  have hdiffer : (unoptimized.preimage "main" "len").digest ≠
      (unoptimized.preimage "main" "y").digest := by
    decide +kernel
  intro j hj k hk h
  rcases hpreimages j hj with hj | hj <;> rcases hpreimages k hk with hk | hk <;> rw [hj, hk] at h ⊢
  · exact absurd h hdiffer
  · exact absurd h.symm hdiffer

/-- The second run of `len` finds the image that the first one stored, though the function has been
replaced in between. -/
theorem serveAll_withCache_replacing :
    create { optimize := false } = .ok unoptimized ∧ (Cache.create 1 none).IsEmpty ∧
    (∀ j ∈ unoptimized.jobs replacing, 0 ∉ j.file.bytes) ∧
    (∀ j ∈ unoptimized.jobs replacing, j.InWords) ∧
    (∀ j ∈ unoptimized.jobs replacing, ∀ k ∈ unoptimized.jobs replacing,
      j.preimage.digest = k.preimage.digest → j.preimage = k.preimage) ∧
    ((unoptimized.withCache (Cache.create 1 none)).serveAll replacing).1 =
      (unoptimized.serveAll replacing).1 ∧
    ∃ c', ((unoptimized.withCache (Cache.create 1 none)).serveAll replacing).2 =
      (unoptimized.serveAll replacing).2.withCache c' := by
  have hfiles : ∀ j ∈ unoptimized.jobs replacing, 0 ∉ j.file.bytes := by decide
  exact ⟨create_unoptimized, Cache.isEmpty_create 1, hfiles, inWords_replacing, digests_replacing,
    serveAll_withCache create_unoptimized (Cache.isEmpty_create 1) replacing hfiles inWords_replacing
      digests_replacing⟩

end Engine

end Inkwell
