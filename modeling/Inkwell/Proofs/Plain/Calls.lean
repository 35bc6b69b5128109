import Mathlib
import Inkwell.Proofs.Plain.Mirror

/-!
# Calls on both machines

Making functions, entering blocks and calling functions of the host keep a machine and its mirror
image together. A call in tail position takes over the registers and the environment of its caller;
what those owned is released only after the new frame has its owners.
-/

namespace Inkwell

open List Machine Heap

variable {h : Heap} {t : Plain} {cells : List Nat} {arguments : List Value}

section Objects

variable {held : List Value} {m : Machine} {f : Frame} {below : List Frame}

/-- A new object on both machines. -/
theorem Mirrors.create (hm : Mirrors held m t) {body : Body}
    (hpaired : h.Paired t.store.heap (body.owned ++ (m.frames.flatMap Frame.owned ++ held)))
    (hbody : body.Labelled) :
    Mirrors held (m.withHeap (h.newObject body).2) ⟨(t.store.create body).2, t.frames⟩ ∧
      (t.store.create body).1 = h.objects.size :=
  ⟨hm.withHeap (hpaired.newObject hbody) (.newObject _ _), hpaired.shadows.size⟩

/-- A datum on both machines. -/
theorem Mirrors.load (hm : Mirrors held m t) (d : Datum) :
    (t.store.load d).1 = (m.store.heap.load d).1 ∧
      Mirrors held (m.withHeap (m.store.heap.load d).2) ⟨(t.store.load d).2, t.frames⟩ := by
  obtain ⟨hvalue, hpaired⟩ := hm.paired.load d
  exact ⟨hvalue, hm.withHeap hpaired (.of_objects (objects_load _ d))⟩

theorem lives_takeCells (hm : Mirrors held m t) (hframes : m.frames = f :: below)
    {binds : List Bind} (hcells : f.activation.takeCells binds = .ok cells) :
    ∀ place ∈ cells, m.store.heap.Lives (.cell place) := by
  induction binds generalizing cells with
  | nil =>
    cases hcells
    exact nofun
  | cons bind rest ih =>
    unfold Activation.takeCells at hcells
    cases hfirst : f.activation.takeCell bind with
    | error failure =>
      rw [hfirst] at hcells
      cases hcells
    | ok first =>
      cases hothers : f.activation.takeCells rest with
      | error failure =>
        rw [hfirst, hothers] at hcells
        cases hcells
      | ok others =>
        rw [hfirst, hothers] at hcells
        cases hcells
        intro place hplace
        rcases mem_cons.mp hplace with rfl | hplace
        · unfold Activation.takeCell at hfirst
          split at hfirst
          · exact hm.lives_cellIn hframes hfirst
          · split at hfirst
            · cases hfirst
            · exact hm.lives_cellOf hframes hfirst
        · exact ih hothers place hplace

/-- Entering a nested block adds an owner to the cells it takes. -/
theorem enterNested_andThen {s : Store} {k : Int} {next : Nat × List Nat → Action Unit}
    {next' : Nat × List Nat → Except Failure Plain}
    (hm : Mirrors held m ⟨s, (f :: below).map Frame.activation⟩) (hframes : m.frames = f :: below)
    (hnext : ∀ place cells, (∀ c ∈ cells, m.store.heap.Lives (.cell c)) →
      Matches held m
        (next (place, cells) (m.withHeap (m.store.heap.retainAll (cells.map .cell))))
        (next' (place, cells))) :
    Matches held m ((Machine.enterNested k >>= next) m) (f.activation.enterNested s k >>= next') := by
  unfold Activation.enterNested
  cases hnested : f.block.nested? k with
  | none =>
    have hnone : Machine.enterNested k m = .error (.fault (.notABlock k)) m := by
      unfold Machine.enterNested
      rw [bind_of_ok (ofFrame_total (fun f => f.block.nested? k) hframes)]
      simp only [hnested]
      rfl
    rw [bind_of_error hnone]
    simp only [show f.activation.block = f.block from rfl, hnested]
    exact .fails hm.kept id
  | some place =>
    have hbind : (Machine.enterNested k >>= next) m =
        (Machine.takeCells (m.store.block place).binds.toList >>= fun cells =>
          (do Machine.modifyHeap fun h => cells.foldl Heap.retainObject h
              next (place, cells) : Action Unit)) m := by
      rw [bind_congr (enterNested_of_some hframes hnested)]
      simp only [bind_assoc, pure_bind]
    have hplain : ∀ cells : Except Failure (List Nat),
        ((do let cells ← cells; pure (place, cells)) >>= next') =
          cells >>= fun cells => next' (place, cells) := by
      intro cells
      cases cells <;> rfl
    simp only [show f.activation.block = f.block from rfl, hnested, hm.block_eq place, hplain]
    rw [hbind]
    refine (reads_takeCells hframes _).andThen hm fun cells hcells => ?_
    rw [bind_of_ok (modifyHeap_eq _ m), foldl_retainObject_eq]
    exact hnext place cells (lives_takeCells hm hframes hcells)

end Objects

/-! ## The registers of a new frame -/

namespace Machine

theorem toList_foldl_setIfInBounds (arguments : List Value) (registers : Array Value) (i : Nat)
    (hfits : i + arguments.length ≤ registers.size) :
    (arguments.foldl (fun (registers, i) v => (registers.setIfInBounds i v, i + 1))
      (registers, i)).1.toList =
      registers.toList.take i ++ arguments ++ registers.toList.drop (i + arguments.length) := by
  induction arguments generalizing registers i with
  | nil => simp
  | cons v rest ih =>
    simp only [length_cons] at hfits
    rw [foldl_cons, ih _ _ (by simp only [Array.size_setIfInBounds]; omega),
      Array.toList_setIfInBounds]
    have hlt : i < registers.toList.length := by
      rw [Array.length_toList]
      omega
    rw [take_add_one, take_set_of_le (Nat.le_refl i), getElem?_set_self hlt,
      drop_set_of_lt (by omega)]
    simp [Nat.add_assoc, Nat.add_comm 1]

/-- The arguments come first, and the other registers are empty. -/
theorem toList_placeArguments {n : Int} (hfits : arguments.length ≤ n.toNat) :
    (placeArguments (emptyRegisters n) arguments).toList =
      arguments ++ List.replicate (n.toNat - arguments.length) .empty := by
  unfold placeArguments
  rw [toList_foldl_setIfInBounds _ _ _ (by simpa [emptyRegisters] using hfits)]
  simp [emptyRegisters]

end Machine

/-- What a new frame owns is what has been retained for it. -/
theorem paired_begin (arguments environment : List Value) {p : Heap} {roots : List Value} {n : Int}
    (hfits : arguments.length ≤ n.toNat)
    (hpaired : h.Paired p (arguments ++ (environment ++ roots))) :
    h.Paired p (((Machine.placeArguments (Machine.emptyRegisters n) arguments).toList ++ environment)
      ++ roots) := by
  rw [toList_placeArguments hfits]
  have hempty : ∀ v ∈ List.replicate (n.toNat - arguments.length) Value.empty, v.object? = none := by
    intro v hv
    rw [eq_of_mem_replicate hv]
    rfl
  refine (hpaired.append_of_none hempty).reorder _ fun v => ?_
  simp only [count_append]
  omega

theorem Block.Tidy.length_take {b : Block} (hb : b.Tidy) (arguments : List Value) :
    (arguments.take b.params.toNat).length ≤ b.slots.toNat := by
  have hle := hb.params_le
  rw [List.length_take]
  omega

/-! ## Calls of functions -/

section Calls

variable {block place : Nat}
variable {held : List Value} {m : Machine} {s : Store} {f : Frame} {below : List Frame}

theorem Store.function_of_hasFunction (hf : s.heap.HasFunction place block cells) :
    s.function place = .ok (block, cells) := by
  obtain ⟨⟨body, owners, released⟩, ho, hreleased, hbody⟩ := hf
  simp only at hreleased hbody
  subst hreleased hbody
  simp only [Store.function, ho]

/-- A function that lives, on both machines. -/
theorem Mirrors.function (hm : Mirrors held m t) (hv : m.store.heap.Lives (.function place)) :
    ∃ block cells,
      Machine.functionAt place m = .ok (block, cells) m ∧
      t.store.heap.HasFunction place block cells ∧ t.store.function place = .ok (block, cells) := by
  obtain ⟨o, block, cells, ho, hreleased, hbody, hfunction⟩ := hm.paired.shadows.function hv
  exact ⟨block, cells, functionAt_of_live ho hreleased hbody, hfunction,
    Store.function_of_hasFunction hfunction⟩

/-- A new frame, unless there are too many. -/
theorem matches_pushFrame (hm : Mirrors held m t) {g : Frame}
    (hpaired : h.Paired t.store.heap (g.owned ++ (m.frames.flatMap Frame.owned ++ held)))
    (hg : g.Rooted t.store) :
    Matches held m (Machine.pushFrame g (m.withHeap h))
      (.ok ⟨t.store, g.activation :: t.frames⟩) := by
  by_cases hfull : m.maxFrames ≤ m.depth
  · rw [pushFrame_of_le (by exact hfull)]
    refine .overflows ⟨hpaired.exact.releaseAll, hpaired.labelled.releaseAll _, rfl, rfl, rfl, rfl⟩ ?_
    rw [hm.depth] at hfull
    simp only [hm.frames, length_cons, length_map]
    omega
  · rw [pushFrame_of_lt (by exact Nat.lt_of_not_le hfull)]
    exact .goesOn (hm.pushed hpaired hg)

section Functions

variable (hfound : Machine.functionAt place m = .ok (block, cells) m)
  (hplace : m.store.heap.Lives (.function place))
  (harguments : ∀ v ∈ arguments, m.store.heap.Lives v)

include hfound hplace harguments

theorem matches_callFunction (hm : Mirrors held m t) (dest : Int)
    (hfunction : t.store.heap.HasFunction place block cells) :
    Matches held m (Machine.callFunction dest place arguments m)
      (.ok ⟨t.store, .begin (t.store.block block) cells arguments dest :: t.frames⟩) := by
  have hgiven : ∀ v ∈ arguments.take (m.store.block block).params.toNat, m.store.heap.Lives v :=
    fun v hv => harguments v (mem_of_mem_take hv)
  have hretained := hm.paired.retainAll hgiven
  have hlives : (m.store.heap.retainAll
      (arguments.take (m.store.block block).params.toNat)).Lives (.function place) := by
    exact lives_retainAll hplace
  rw [callFunction_eq hfound, hm.block_eq, retainObject_eq_function]
  have hpaired := (hretained.retain hlives).reorder
    (arguments.take (m.store.block block).params.toNat ++
      ([.function place] ++ (m.frames.flatMap Frame.owned ++ held))) fun v => by
    simp only [count_append, count_cons, count_nil]
    omega
  refine matches_pushFrame hm (paired_begin _ _ ((hm.tidy_block block).length_take arguments) hpaired) ?_
  exact ⟨fun other hother => by
      cases hother
      exact ⟨rfl, block, hfunction, hm.block_eq block⟩,
    nofun, hm.tidy_block block⟩

theorem matches_replaceFunction (hm : Mirrors held m ⟨s, (f :: below).map Frame.activation⟩)
    (hframes : m.frames = f :: below) (hfunction : s.heap.HasFunction place block cells) :
    Matches held m (Machine.replaceFunction place arguments m)
      (.ok ⟨s, .begin (s.block block) cells arguments f.destination ::
        below.map Frame.activation⟩) := by
  have hretained := (hm.top_paired hframes).retainAll harguments
  have htop := hm.top_rooted hframes
  have hsplit := take_append_drop (m.store.block block).params.toNat arguments
  have hfits := (hm.tidy_block block).length_take arguments
  rw [show s.block block = m.store.block block from hm.block_eq block]
  by_cases hsame : f.function = some place
  · -- The environment stays, so that only the registers change their owners.
    obtain ⟨howns, block', hfunction', hblock⟩ := htop.function place hsame
    obtain ⟨rfl, rfl⟩ := hfunction.unique hfunction'
    rw [show s.block block = m.store.block block from hm.block_eq block] at hblock
    rw [replaceFunction_eq hframes hfound, if_pos hsame]
    have hreset := (hretained.reorder (f.registers.toList ++
        (arguments ++ (f.environment ++ Mirrors.others below held))) fun v => by
      simp only [Frame.owned, count_append]
      omega).releaseAll
    rw [← hsplit] at hreset
    have hdropped := (hreset.reorder (arguments.drop (m.store.block block).params.toNat ++
        (arguments.take (m.store.block block).params.toNat ++
          (f.environment ++ Mirrors.others below held))) fun v => by
      simp only [count_append]
      omega).releaseAll
    rw [hsplit] at hdropped
    have hgoesOn := hm.withTop hframes (paired_begin _ _ hfits hdropped)
      (g := { f with
        registers := Machine.placeArguments (Machine.emptyRegisters (m.store.block block).slots)
          (arguments.take (m.store.block block).params.toNat)
        counter := 0 }) ⟨htop.function, htop.other, htop.tidy⟩
    rw [map_cons] at hgoesOn
    rw [← hblock] at hgoesOn ⊢
    exact .goesOn hgoesOn
  · rw [replaceFunction_eq hframes hfound, if_neg hsame, retainObject_eq_function]
    have hreset := ((hretained.retain (lives_retainAll hplace)).reorder
        ((f.registers.toList ++ f.environment) ++
          (arguments ++ (.function place :: Mirrors.others below held))) fun v => by
      simp only [Frame.owned, count_append, count_cons]
      omega).releaseAll
    rw [releaseAll_append, ← hsplit] at hreset
    have hdropped := (hreset.reorder (arguments.drop (m.store.block block).params.toNat ++
        (arguments.take (m.store.block block).params.toNat ++
          ([.function place] ++ Mirrors.others below held))) fun v => by
      simp only [count_append, count_cons, count_nil]
      omega).releaseAll
    rw [hsplit] at hdropped
    exact .goesOn (hm.withTop hframes (paired_begin _ _ hfits hdropped)
      ⟨fun other hother => by
          cases hother
          exact ⟨rfl, block, hfunction, hm.block_eq block⟩,
        by simp, hm.tidy_block block⟩)

end Functions

/-- The block of an arm with the cells it has taken, on top of the innermost frame or in its place. -/
theorem matches_callArm (hm : Mirrors held m ⟨s, (f :: below).map Frame.activation⟩)
    (hframes : m.frames = f :: below) (dest k : Int) (tail : Bool) :
    Matches held m (Machine.callArm dest k tail m)
      (Plain.callArm f.activation (below.map Frame.activation) s dest k tail) := by
  unfold Machine.callArm Plain.callArm
  refine enterNested_andThen hm hframes fun place cells hcells => ?_
  have hlives : ∀ v ∈ cells.map Value.cell, m.store.heap.Lives v := by
    intro v hv
    obtain ⟨c, hc, rfl⟩ := mem_map.mp hv
    exact hcells c hc
  have hretained := (hm.top_paired hframes).retainAll hlives
  have hfits : ([] : List Value).length ≤ (m.store.block place).slots.toNat := Nat.zero_le _
  have hrooted : ∀ g : Frame, g.function = none → g.ownsCells = true →
      g.block = m.store.block place → g.Rooted s := fun g hfunction howns hblock =>
    ⟨fun other hother => (by rw [hfunction] at hother; cases hother), fun _ => .inl howns,
      hblock ▸ hm.tidy_block place⟩
  dsimp only
  rw [bind_of_ok (blockAt_eq place _)]
  simp only [Plain.enter, Activation.begin, take_nil,
    show s.block place = m.store.block place from hm.block_eq place]
  cases tail with
  | true =>
    have hframes' : (m.withHeap (m.store.heap.retainAll (cells.map .cell))).frames = f :: below :=
      hframes
    have hreset := (hretained.reorder ((f.registers.toList ++ f.environment) ++
        ([] ++ (cells.map .cell ++ Mirrors.others below held))) fun v => by
      simp only [Frame.owned, count_append, count_nil]
      omega).releaseAll
    rw [releaseAll_append] at hreset
    simp only [if_true]
    rw [bind_of_ok (resetRegisters_eq _ hframes'),
      bind_of_ok (leaveEnvironment_eq rfl), modifyFrame_eq _ rfl]
    exact .goesOn (hm.withTop hframes (paired_begin _ _ hfits hreset) (hrooted _ rfl rfl rfl))
  | false =>
    simp only [Bool.false_eq_true, if_false]
    refine matches_pushFrame hm (paired_begin _ _ hfits ?_) (hrooted _ rfl rfl rfl)
    rw [hframes]
    exact hretained.reorder
      ([] ++ (cells.map .cell ++ ((f :: below).flatMap Frame.owned ++ held))) fun v => by
        simp only [Mirrors.others, flatMap_cons, count_append, count_nil]
        omega

end Calls

end Inkwell
