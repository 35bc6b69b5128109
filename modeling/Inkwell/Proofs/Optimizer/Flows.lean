import Mathlib
import Inkwell.Optimizer.Flow

/-!
# What flow facts say

The facts that are gathered about a block list every instruction that writes a register and every
branch, and count how often each register is read. A pass asks about code that it has changed in the
meantime; the facts still describe it as long as no new branch and no new write has come in
(`Flow.Describes`). What such facts say is true of the code: the only writer of a register is the only
one, and what is passed on every way is passed.
-/

namespace Inkwell

open List

/-! ## Ways through a block -/

namespace Block

variable {c d : Nat}
variable {b : Block}

/-- Every way to instruction `c` passes instruction `d` in front of it: no branch in front of `d`
goes to a place between the two. -/
def Dominates (b : Block) (d c : Nat) : Prop :=
  d < c ∧ ∀ (o : Nat) ins, b.code[o]? = some ins → ins.op.isBranch = true → o < d →
    (d : Int) < ins.target → (c : Int) < ins.target

/-- No instruction but the one at `d` writes a register, which is no parameter. -/
def OnlyWriter (b : Block) (r : Int) (d : Nat) : Prop :=
  b.params ≤ r ∧ ∀ (o : Nat) ins, b.code[o]? = some ins → ins.writes? = some r → o = d

/-- A register has one value at `c` and at every later place. -/
def StableAt (b : Block) (r : Int) (c : Nat) : Prop :=
  (∀ (o : Nat) ins, b.code[o]? = some ins → ins.writes? ≠ some r) ∨
    ∃ d, b.OnlyWriter r d ∧ b.Dominates d c

/-- Branches go forward, and a call that takes over the activation is the last instruction and gives
the result of the block. -/
structure Forward (b : Block) : Prop where
  targets : ∀ (o : Nat) ins, b.code[o]? = some ins → ins.op.isBranch = true → (o : Int) < ins.target
  tailCall : ∀ (o : Nat) ins, b.code[o]? = some ins → ins.op = .tailCall →
    o + 1 = b.code.size ∧ ins.dest = b.ret

/-- What is passed on every way behind an instruction is the instruction, or is passed on every way
to it. -/
theorem Dominates.step {c' : Nat} {ins : Instruction} (hdom : b.Dominates d c')
    (hforward : b.Forward) (hins : b.code[c]? = some ins)
    (hleads : c' = c + 1 ∨ ins.op.isBranch = true ∧ c' = ins.target.toNat) :
    d = c ∨ b.Dominates d c := by
  have htarget := hforward.targets c ins hins
  have hcc' : c < c' := by
    rcases hleads with rfl | ⟨hop, rfl⟩
    · exact Nat.lt_succ_self c
    · have := htarget hop
      omega
  rcases Nat.lt_trichotomy d c with hlt | heq | hgt
  · refine .inr ⟨hlt, fun o other hother hop hod hdt => ?_⟩
    have := hdom.2 o other hother hop hod hdt
    omega
  · exact .inl heq
  · -- the instruction itself jumps over `d`
    rcases hleads with rfl | ⟨hop, rfl⟩
    · have := hdom.1
      omega
    · have := hdom.1
      have := hdom.2 c ins hins hop hgt (by omega)
      omega

/-- The nearer of two instructions that are both passed is passed behind the other. -/
theorem Dominates.between {e : Nat} (he : b.Dominates e c) (hed : e < d) (hdc : d < c) :
    b.Dominates e d :=
  ⟨hed, fun o ins hins hop hoe het => by have := he.2 o ins hins hop hoe het; omega⟩

theorem Dominates.trans {e : Nat} (he : b.Dominates e d) (hd : b.Dominates d c) :
    b.Dominates e c :=
  ⟨Nat.lt_trans he.1 hd.1, fun o ins hins hop hoe het =>
    hd.2 o ins hins hop (Nat.lt_trans hoe he.1) (he.2 o ins hins hop hoe het)⟩

theorem StableAt.not_writes {r : Int} {ins : Instruction} (h : b.StableAt r d)
    (hins : b.code[c]? = some ins) (hdc : d ≤ c) : ins.writes? ≠ some r := by
  intro hwrites
  rcases h with hnone | ⟨e, honly, hdom⟩
  · exact hnone c ins hins hwrites
  · have := honly.2 c ins hins hwrites
    have := hdom.1
    omega

end Block

namespace Flow

variable {value : Datum} {k : Int}
variable {f : Flow} {p : Program} {b : Block} {ins : Instruction} {r : Int} {d i offset : Nat}

/-! ## Gathering -/

theorem readCount_addReads (f : Flow) (registers : List Int) (n r : Int) :
    (f.addReads registers n).readCount r = f.readCount r + n * registers.count r := by
  unfold addReads readCount
  dsimp only
  generalize f.reads = reads
  induction registers generalizing reads with
  | nil => simp
  | cons first rest ih =>
    rw [foldl_cons, ih, Std.HashMap.getElem?_alter, count_cons]
    by_cases hr : first = r
    · subst hr
      simp
      ring
    · simp [hr]

theorem writers_add : (add p b f offset ins).writers r =
    if ins.writes? = some r then offset :: f.writers r else f.writers r := by
  unfold add
  cases hwrites : ins.writes? with
  | none =>
    rw [if_neg (by simp : ¬ none = some r)]
    dsimp only
    split <;> rfl
  | some written =>
    have halter : Flow.writers { f with
        definitions := f.definitions.alter written fun found => some (offset :: found.getD []) } r =
        if some written = some r then offset :: f.writers r else f.writers r := by
      unfold writers
      dsimp only
      rw [Std.HashMap.getElem?_alter]
      by_cases hr : written = r
      · simp [hr]
      · simp [hr]
    rw [← halter]
    dsimp only
    split <;> rfl

theorem jumps_add : (add p b f offset ins).jumps =
    if ins.op.isBranch then (offset, ins.target) :: f.jumps else f.jumps := by
  unfold add
  cases ins.writes? <;> dsimp only <;> split <;> rfl

theorem params_add : (add p b f offset ins).params = f.params := by
  unfold add
  cases ins.writes? <;> dsimp only <;> split <;> rfl

theorem readCount_add :
    (add p b f offset ins).readCount r = f.readCount r + (p.reads b ins).count r := by
  have hreads : (add p b f offset ins).readCount r =
      (f.addReads (p.reads b ins) 1).readCount r := by
    unfold add
    cases ins.writes? <;> dsimp only <;> split <;> rfl
  rw [hreads, readCount_addReads, one_mul]

/-- The facts about some of the instructions of a block. -/
def gather (p : Program) (b : Block) (f : Flow) (code : List Instruction) (offset : Nat) : Flow :=
  (code.zipIdx offset).foldl (fun f (ins, offset) => add p b f offset ins) f

theorem gather_cons (code : List Instruction) :
    gather p b f (ins :: code) offset = gather p b (add p b f offset ins) code (offset + 1) := rfl

theorem params_gather (f : Flow) (code : List Instruction) (offset : Nat) : (gather p b f code offset).params = f.params := by
  induction code generalizing f offset with
  | nil => rfl
  | cons first rest ih => rw [gather_cons, ih, params_add]

theorem writers_gather (f : Flow) (code : List Instruction) (offset : Nat) :
    (gather p b f code offset).writers r =
      (((code.zipIdx offset).filter (·.1.writes? = some r)).map (·.2)).reverse ++ f.writers r := by
  induction code generalizing f offset with
  | nil => rfl
  | cons first rest ih =>
    rw [gather_cons, ih, writers_add]
    by_cases hwrites : first.writes? = some r <;> simp [hwrites]

theorem jumps_gather (f : Flow) (code : List Instruction) (offset : Nat) :
    (gather p b f code offset).jumps = (((code.zipIdx offset).filter (·.1.op.isBranch)).map
      fun (ins, offset) => (offset, ins.target)).reverse ++ f.jumps := by
  induction code generalizing f offset with
  | nil => rfl
  | cons first rest ih =>
    rw [gather_cons, ih, jumps_add]
    by_cases hop : first.op.isBranch = true <;> simp [hop]

theorem readCount_gather (f : Flow) (code : List Instruction) (offset : Nat) :
    (gather p b f code offset).readCount r =
      f.readCount r + (code.flatMap (p.reads b)).count r := by
  induction code generalizing f offset with
  | nil => simp [gather]
  | cons first rest ih =>
    rw [gather_cons, ih, readCount_add, flatMap_cons, count_append]
    push_cast
    ring

theorem params_ofBlock (p : Program) (b : Block) : (ofBlock p b).params = b.params :=
  params_gather { params := b.params } b.code.toList 0

theorem writers_ofBlock (p : Program) (b : Block) (r : Int) : (ofBlock p b).writers r =
    ((b.code.toList.zipIdx.filter (·.1.writes? = some r)).map (·.2)).reverse := by
  refine (writers_gather { params := b.params } b.code.toList 0).trans ?_
  simp [writers]

theorem jumps_ofBlock (p : Program) (b : Block) : (ofBlock p b).jumps =
    ((b.code.toList.zipIdx.filter (·.1.op.isBranch)).map
      fun (ins, offset) => (offset, ins.target)).reverse :=
  (jumps_gather { params := b.params } b.code.toList 0).trans (append_nil _)

theorem mem_writers_ofBlock :
    d ∈ (ofBlock p b).writers r ↔ ∃ ins, b.code[d]? = some ins ∧ ins.writes? = some r := by
  simp [writers_ofBlock, mem_zipIdx_iff_getElem?]

theorem mem_jumps_ofBlock (hins : b.code[offset]? = some ins) (hop : ins.op.isBranch = true) :
    (offset, ins.target) ∈ (ofBlock p b).jumps := by
  simpa [jumps_ofBlock, mem_zipIdx_iff_getElem?] using ⟨ins, ⟨hins, hop⟩, rfl⟩

theorem readCount_ofBlock : (ofBlock p b).readCount r =
    (b.code.toList.flatMap (p.reads b)).count r + [b.ret].count r := by
  show ((gather p b { params := b.params } b.code.toList 0).addReads [b.ret] 1).readCount r = _
  rw [readCount_addReads, readCount_gather, one_mul]
  simp [readCount]

/-! ## Facts about code that has changed -/

/-- The facts list all writes and branches of a block. What they list beyond that was a write once:
the instruction there writes the same register still, or nothing. -/
structure Describes (f : Flow) (b : Block) : Prop where
  params : f.params = b.params
  writers : ∀ (o : Nat) ins r, b.code[o]? = some ins → ins.writes? = some r → o ∈ f.writers r
  jumps : ∀ (o : Nat) ins, b.code[o]? = some ins → ins.op.isBranch = true →
    (o, ins.target) ∈ f.jumps
  inside : ∀ o r, o ∈ f.writers r →
    ∃ ins, b.code[o]? = some ins ∧ (ins.writes? = none ∨ ins.writes? = some r)

theorem describes_ofBlock (p : Program) (b : Block) : (ofBlock p b).Describes b where
  params := params_ofBlock p b
  writers _ ins _ hins hwrites := mem_writers_ofBlock.2 ⟨ins, hins, hwrites⟩
  jumps _ _ hins hop := mem_jumps_ofBlock hins hop
  inside _ _ ho := by
    obtain ⟨ins, hins, hwrites⟩ := mem_writers_ofBlock.1 ho
    exact ⟨ins, hins, .inr hwrites⟩

theorem onlyWriter?_eq_some (h : f.onlyWriter? r = some d) : f.params ≤ r ∧ f.writers r = [d] := by
  unfold onlyWriter? at h
  split at h
  · cases h
  · rename_i hr
    refine ⟨by omega, ?_⟩
    split at h
    · rename_i hwriters
      rw [hwriters, Option.some.inj h]
    · cases h

theorem dominates_eq_true (h : f.dominates d i = true) :
    d < i ∧ ∀ jump ∈ f.jumps, jump.1 < d → (d : Int) < jump.2 → (i : Int) < jump.2 := by
  unfold dominates at h
  rw [Bool.and_eq_true, decide_eq_true_eq, all_eq_true] at h
  refine ⟨h.1, fun jump hjump hsource htarget => ?_⟩
  have hnot := h.2 jump hjump
  simp only [Bool.not_eq_true', Bool.and_eq_false_iff, decide_eq_false_iff_not] at hnot
  omega

theorem writerBefore?_eq_some (h : f.writerBefore? r i = some d) :
    f.onlyWriter? r = some d ∧ f.dominates d i = true := by
  unfold writerBefore? at h
  split at h
  · rename_i found hfound
    split at h
    · rename_i hdominates
      cases h
      exact ⟨hfound, hdominates⟩
    · cases h
  · cases h

namespace Describes

variable (hf : f.Describes b)
include hf

theorem onlyWriter (h : f.onlyWriter? r = some d) : b.OnlyWriter r d := by
  obtain ⟨hparams, hwriters⟩ := onlyWriter?_eq_some h
  refine ⟨hf.params ▸ hparams, fun o ins hins hwrites => ?_⟩
  have ho := hf.writers o ins r hins hwrites
  rw [hwriters] at ho
  exact mem_singleton.mp ho

theorem dominates (h : f.dominates d i = true) : b.Dominates d i := by
  obtain ⟨hlt, hjumps⟩ := dominates_eq_true h
  exact ⟨hlt, fun o ins hins hop hod hdt => hjumps _ (hf.jumps o ins hins hop) hod hdt⟩

theorem stableAt (h : f.isStableAt r i = true) : b.StableAt r i := by
  unfold isStableAt at h
  split at h
  · refine .inl fun o ins hins hwrites => ?_
    have ho := hf.writers o ins r hins hwrites
    rw [isEmpty_iff.mp h] at ho
    cases ho
  · obtain ⟨d, hd⟩ := Option.isSome_iff_exists.1 h
    obtain ⟨honly, hdominates⟩ := writerBefore?_eq_some hd
    exact .inr ⟨d, hf.onlyWriter honly, hf.dominates hdominates⟩

/-- The instruction that is the only writer of a register writes it still, or nothing. -/
theorem writes_of_onlyWriter (h : f.onlyWriter? r = some d) :
    ∃ ins, b.code[d]? = some ins ∧ (ins.writes? = none ∨ ins.writes? = some r) :=
  hf.inside d r (by rw [(onlyWriter?_eq_some h).2]; exact mem_singleton_self d)

end Describes

/-! ## Known constants -/

/-- Where a constant that a register surely holds is loaded. -/
structure LoadsAt (f : Flow) (b : Block) (r : Int) (i : Nat) (value : Datum) (k : Int) (d : Nat)
    (ins : Instruction) : Prop where
  writer : f.onlyWriter? r = some d
  dominates : f.dominates d i = true
  code : b.code[d]? = some ins
  op : ins.op = .loadConstant
  constant : b.constant? k = some value
  place : ins.k = k

theorem constantAt_eq_some (h : f.constantAt b r i = some (some (value, k))) :
    (∃ d ins, f.LoadsAt b r i value k d ins) ∧ ∀ place, value ≠ .block place := by
  unfold constantAt at h
  split at h
  · cases h
  · rename_i d hd
    obtain ⟨hwriter, hdominates⟩ := writerBefore?_eq_some hd
    split at h
    · cases h
    · rename_i ins hins
      split at h
      · rename_i hop
        split at h
        · cases h
        · cases h
        · rename_i found hblock hfound
          cases h
          exact ⟨⟨d, ins, hwriter, hdominates, hins, hop, hfound, rfl⟩, hblock⟩
      · cases h

theorem LoadsAt.dest (h : f.LoadsAt b r i value k d ins) (hf : f.Describes b) : ins.dest = r := by
  obtain ⟨found, hfound, hwrites⟩ := hf.writes_of_onlyWriter h.writer
  cases h.code.symm.trans hfound
  simp only [Instruction.writes?, h.op, Option.some.injEq, reduceCtorEq, false_or] at hwrites
  exact hwrites

/-- There is an answer to which constant a register holds when all loads name a constant. -/
theorem exists_constantAt (hf : f.Describes b)
    (hloads : ∀ (o : Nat) ins, b.code[o]? = some ins → ins.op = .loadConstant →
      (b.constant? ins.k).isSome = true) : ∃ found, f.constantAt b r i = some found := by
  unfold constantAt
  cases hd : f.writerBefore? r i with
  | none => exact ⟨none, rfl⟩
  | some d =>
    obtain ⟨ins, hins, -⟩ := hf.writes_of_onlyWriter (writerBefore?_eq_some hd).1
    dsimp only
    rw [hins]
    dsimp only
    split
    · rename_i hop
      obtain ⟨value, hvalue⟩ := Option.isSome_iff_exists.1 (hloads d ins hins hop)
      rw [hvalue]
      cases value <;> exact ⟨_, rfl⟩
    · exact ⟨none, rfl⟩

end Flow

end Inkwell
