import Mathlib
import Inkwell.Proofs.Plain.Calls

/-!
# Instructions on both machines

Functions of the host, elements, and with them every instruction: a machine and its mirror image stay
together, or both fail for the same reason, and that is never something that has been released.
-/

namespace Inkwell

open Machine Heap

variable {t : Plain} {v : Value}

/-! ## Functions of the host -/

section Natives

variable {held : List Value} {m : Machine} {f : Frame} {below : List Frame}

/-- What a deed makes of a store and of one with the shadow of its heap. -/
inductive Deed.Alike (roots : List Value) (s p : Store) :
    EStateM.Result Fault Store Reply → EStateM.Result Fault Store Reply → Prop
  | answer {v : Value} {s' p' : Store} (paired : s'.heap.Paired p'.heap roots)
      (lives : s'.heap.Lives v) (code : s'.code = s.code) (code' : p'.code = p.code)
      (output : p'.output = s'.output) (keeps : p.heap.KeepsFunctions p'.heap) :
      Deed.Alike roots s p (.ok (.answer v) s') (.ok (.answer v) p')
  | refuse {cause : Fault} (noRelease : ¬ cause.IsRelease) :
      Deed.Alike roots s p (.error cause s) (.error cause p)

theorem Deed.perform_alike {deed : Deed} {x : Sight} (hfits : deed.Fits x) {roots : List Value}
    {s p : Store} (hpaired : s.heap.Paired p.heap roots) (houtput : p.output = s.output)
    (hkeys : ∃ n keys, x.elements = .ok (n, keys) ∧ ∀ d ∈ keys, d.object? = none) :
    Deed.Alike roots s p (deed.perform s) (deed.perform p) := by
  cases deed with
  | answer v => exact .answer hpaired (lives_of_none hfits) rfl rfl houtput (.refl _)
  | spell t =>
    have hstrings := hpaired.strings (s.heap.strings.push t)
    have hanswer : ∀ store : Store, (Deed.spell t).perform store =
        .ok (.answer (.string store.heap.strings.size))
          { store with heap.strings := store.heap.strings.push t } := fun _ => rfl
    rw [hanswer s, hanswer p, hpaired.shadows.strings]
    exact .answer hstrings (lives_of_none rfl) rfl rfl houtput (.of_objects rfl)
  | write t v =>
    obtain ⟨code, heap, text, refusal⟩ := s
    obtain ⟨code', heap', output'⟩ := p
    simp only at houtput
    subst houtput
    cases refusal with
    | none => exact .answer hpaired (lives_of_none hfits) rfl rfl rfl (.refl _)
    | some reason => exact .refuse fun h => h
  | list elements =>
    obtain ⟨n, hn⟩ := hfits
    obtain ⟨n', keys, hkeys, hplain⟩ := hkeys
    rw [hn] at hkeys
    cases hkeys
    obtain ⟨hvalue, hlist⟩ := hpaired.newList hplain
    simp only [perform, hvalue]
    refine .answer hlist ?_ rfl rfl houtput ?_
    · rw [Native.newList_eq hplain]
      exact lives_of_newObject rfl trivial
    · rw [Native.newList_eq hplain]
      exact (Heap.KeepsFunctions.of_objects rfl).trans (.newObject _ _)
  | refuse cause =>
    refine .refuse ?_
    rcases hfits with ⟨message, rfl⟩ | herror
    · exact fun h => h
    · obtain ⟨n, keys, hkeys, -⟩ := hkeys
      rw [herror] at hkeys
      cases hkeys

/-- What a standard function sees of a value that lives. -/
theorem Mirrors.sight (hm : Mirrors held m t) (hv : m.store.heap.Lives v) :
    t.store.sight v = m.store.sight v ∧ ∃ n keys,
      (m.store.sight v).elements = .ok (n, keys) ∧ ∀ d ∈ keys, d.object? = none := by
  refine ⟨Store.sight_eq hm.code hm.paired hv, ?_⟩
  cases v with
  | composite place =>
    obtain ⟨o, c, -, -, -, hc, -⟩ := hm.paired.shadows.composite hv
    refine ⟨c.size, c.keys, ?_, fun d hd =>
      Datum.object?_of_isBare ((hm.paired.labelled.composite hc).keys d hd)⟩
    simp only [Store.sight, hc]
    rfl
  | _ => exact ⟨0, [], rfl, nofun⟩

/-- A standard function gives the same on both machines. -/
theorem Mirrors.ask {t : Plain} (hm : Mirrors held m t) (id : Int) {arguments : List Value}
    (harguments : ∀ v ∈ arguments, m.store.heap.Lives v) :
    (∃ cause, ¬ cause.IsRelease ∧ t.store.ask id arguments = .error (.fault cause) ∧
      Machine.ask id arguments m = .error (.fault cause) m) ∨
    ∃ v s' t', t.store.ask id arguments = .ok (v, t') ∧
      Machine.ask id arguments m = .ok (.answer v) { m with store := s' } ∧
      Mirrors held { m with store := s' } ⟨t', t.frames⟩ ∧ s'.heap.Lives v := by
  have hfound := nativeAt_eq id m
  rw [hm.natives] at hfound
  unfold Store.ask Machine.ask
  cases hn : (if id < 0 then none else Natives.standard[id.toNat]?) with
  | none =>
    rw [hn] at hfound
    exact .inl ⟨.unknownNative id, fun h => h, rfl, bind_of_error hfound⟩
  | some n =>
    rw [hn] at hfound
    have hargument : m.store.heap.Lives (Native.argument arguments) := by
      cases arguments with
      | nil => exact lives_of_none rfl
      | cons v rest => exact harguments v (.head _)
    obtain ⟨deed, hdoes, -⟩ := Native.does_of_standard hn
    obtain ⟨hsight, hkeys⟩ := hm.sight hargument
    have halike := Deed.perform_alike (hdoes.fits _) hm.paired hm.output hkeys
    rw [← hdoes.run arguments m.store, ← hsight, ← hdoes.run arguments t.store] at halike
    rw [bind_of_ok hfound, native_eq]
    dsimp only
    generalize n.run arguments m.store = result at halike
    generalize n.run arguments t.store = result' at halike
    cases halike with
    | answer paired lives code code' output keeps =>
      refine .inr ⟨_, _, _, rfl, rfl, hm.withStore paired code ?_ output keeps, lives⟩
      rw [code', code, hm.code]
    | refuse noRelease => exact .inl ⟨_, noRelease, rfl, rfl⟩

end Natives

/-! ## Calls and elements -/

section Elements

variable {held : List Value} {m : Machine} {s : Store} {f : Frame} {below : List Frame}

variable (hm : Mirrors held m ⟨s, (f :: below).map Frame.activation⟩)

include hm

theorem matches_call
    (hframes : m.frames = f :: below) {perform : Reply → Action Value}
    (hperform : ∀ v, perform (.answer v) = pure v) (dest : Int) {callee : Value}
    {arguments : List Value} (tail : Bool) (hcallee : m.store.heap.Lives callee)
    (harguments : ∀ v ∈ arguments, m.store.heap.Lives v) :
    Matches held m (Machine.call perform dest callee arguments tail m)
      (Plain.call f.activation (below.map Frame.activation) s dest callee arguments tail)  := by
  unfold Machine.call Plain.call
  cases callee with
  | native id =>
    dsimp only
    rw [callNative_eq, bind_assoc]
    rcases hm.ask id harguments with
      ⟨cause, hcause, hask, hasked⟩ | ⟨v, s', t', hask, hasked, hm', hv⟩
    · rw [bind_of_error hasked, hask]
      exact .fails hm.kept hcause
    · rw [bind_of_ok hasked, hask, hperform, pure_bind]
      unfold Machine.give
      show Matches held m _ (if 0 ≤ dest then _ else _)
      split
      · exact matches_give hm' hframes hv rfl
      · rw [bind_of_ok (retain_eq v _), release_eq]
        exact .goesOn (hm'.withHeap (hm'.paired.retain hv).release (.refl _))
  | function place =>
    obtain ⟨block, cells, hfound, hfunction, hplain⟩ := hm.function hcallee
    dsimp only
    rw [hplain]
    cases tail with
    | true => exact matches_replaceFunction hfound hcallee harguments hm hframes hfunction
    | false => exact matches_callFunction hfound hcallee harguments hm dest hfunction
  | _ => exact .fails hm.kept fun h => h

omit hm in
/-- Reading from the store what looks the same on both machines. -/
theorem reads_ofStore {α : Type} {g : Store → Except Fault α} {result : Except Fault α}
    (hg : g m.store = result) (hresult : ∀ cause, result = .error cause → ¬ cause.IsRelease) :
    Reads m (Machine.ofStore g m) (orFault result) := by
  cases result with
  | ok a =>
    rw [ofStore_of_ok hg]
    exact .ok a
  | error cause =>
    rw [ofStore_of_error hg]
    exact .fault cause (hresult cause rfl)

omit hm in
/-- An element of a composite that lives. -/
theorem Mirrors.getElement (hm : Mirrors held m t) {place : Nat}
    (hplace : m.store.heap.Lives (.composite place)) (k : Datum) :
    m.store.heap.getElement place k = t.store.heap.getElement place k ∧
      (∀ cause, t.store.heap.getElement place k = .error cause → ¬ cause.IsRelease) ∧
      ∀ v, t.store.heap.getElement place k = .ok v → m.store.heap.Lives v := by
  obtain ⟨o, c, ho, hreleased, hbody, hc, hc', -⟩ := hm.paired.shadows.composite hplace
  unfold Heap.getElement
  rw [hc, hc']
  cases hkey : Key.ofDatum k with
  | error cause =>
    refine ⟨rfl, fun cause' hcause => ?_, nofun⟩
    cases hcause
    exact (Key.ordinary_ofDatum hkey).not_release
  | ok key =>
    refine ⟨rfl, nofun, fun v hv => ?_⟩
    cases hv
    rcases Composite.get_mem c key with hnone | hmem
    · exact lives_of_none (by rw [hnone]; rfl)
    · exact hm.paired.exact.held_lives ho hreleased (by rw [hbody]; exact hmem)

/-- A datum that is no object goes into a register. -/
theorem matches_load
    (hframes : m.frames = f :: below) (dest : Int) {d : Datum} (hd : d.object? = none) :
    Matches held m ((Machine.load d >>= Machine.setRegister dest) m)
      (Plain.give f.activation (below.map Frame.activation) dest (s.load d))  := by
  obtain ⟨hvalue, hm'⟩ := hm.load d
  have hlives : (m.store.heap.load d).2.Lives (m.store.heap.load d).1 :=
    lives_of_none (by rw [object?_load, hd])
  rw [bind_of_ok (load_eq d m), ← hvalue] at *
  exact matches_give hm' hframes hlives rfl

theorem matches_element
    (hframes : m.frames = f :: below) {container key : Value} (dest : Int)
    (hcontainer : m.store.heap.Lives container) (hkey : m.store.heap.Lives key) :
    Matches held m ((Machine.element container key >>= Machine.setRegister dest) m)
      (s.element container key >>= Plain.give f.activation (below.map Frame.activation) dest)  := by
  have hdatum : s.heap.datum key = m.store.heap.datum key := hm.paired.shadows.datum key
  have hother : ∀ v : Value, Matches held m
      (((do let type := (← Machine.datum v).typeName
            Machine.ofStore fun s => .error (.cannotAccess (s.inspect key) type) : Action Value) >>=
        Machine.setRegister dest) m)
      (.error (.fault (.cannotAccess (s.inspect key) (s.heap.datum v).typeName))) := by
    intro v
    rw [show s.heap.datum v = m.store.heap.datum v from hm.paired.shadows.datum v,
      show s.inspect key = m.store.inspect key from Store.inspect_eq hm.code hm.paired hkey]
    exact .fails hm.kept fun h => h
  unfold Machine.element
  rw [bind_assoc, bind_of_ok (datum_eq key m), ← hdatum]
  unfold Store.element
  cases container with
  | composite place =>
    obtain ⟨hsame, hfault, hlives⟩ := hm.getElement hcontainer (s.heap.datum key)
    simp only [bind_assoc, pure_bind]
    refine (reads_ofStore (g := fun s' => s'.heap.getElement place (s.heap.datum key)) hsame
      hfault).andThen hm fun v hv => matches_give hm hframes (hlives v ?_) rfl
    exact ok_of_orFault hv
  | string buffer =>
    have hsame : m.store.heap.byteAt buffer (s.heap.datum key) =
        s.heap.byteAt buffer (s.heap.datum key) := by
      simp only [Heap.byteAt, show s.heap.text buffer = m.store.heap.text buffer from
        hm.paired.shadows.text buffer]
    simp only [bind_assoc, pure_bind]
    refine (reads_ofStore (g := fun s' => s'.heap.byteAt buffer (s.heap.datum key)) hsame
      fun _ h => (ordinary_byteAt h).not_release).andThen hm fun d hd => ?_
    exact matches_load hm hframes dest
      (Datum.object?_of_isBare (isBare_byteAt (ok_of_orFault hd)))
  | _ => exact hother _

theorem matches_assign
    {container key : Value} (hcontainer : m.store.heap.Lives container)
    (hkey : m.store.heap.Lives key) (hv : m.store.heap.Lives v) :
    Matches held m (Machine.assign container key v m)
      (do let s ← s.assign container key v
          return ⟨s, (f :: below).map Frame.activation⟩)  := by
  have hdatum : s.heap.datum key = m.store.heap.datum key := hm.paired.shadows.datum key
  have hother : ∀ container : Value, Matches held m
      ((do let type := (← Machine.datum container).typeName
           Machine.ofStore fun s => .error (.cannotAssign (s.inspect key) type) : Action Unit) m)
      (.error (.fault (.cannotAssign (s.inspect key) (s.heap.datum container).typeName))) := by
    intro container
    rw [show s.heap.datum container = m.store.heap.datum container from
        hm.paired.shadows.datum container,
      show s.inspect key = m.store.inspect key from Store.inspect_eq hm.code hm.paired hkey]
    exact .fails hm.kept fun h => h
  unfold Machine.assign
  rw [bind_of_ok (datum_eq key m), ← hdatum]
  unfold Store.assign
  cases container with
  | composite place =>
    obtain ⟨o, c, ho, hreleased, hbody, hc, hc', o', ho', hbody'⟩ :=
      hm.paired.shadows.composite hcontainer
    have hlabel : m.store.heap.elementKey place (s.heap.datum key) =
        Key.ofDatum (s.heap.datum key) := by
      simp only [Heap.elementKey, hc]
      rfl
    simp only [show s.heap.composite place = .ok c from hc', orFault, bind_assoc, pure_bind]
    refine (reads_ofStore (g := fun s' => s'.heap.elementKey place (s.heap.datum key)) hlabel
      fun _ h => (Key.ordinary_ofDatum h).not_release).andThen hm fun label hkey' => ?_
    have hretained := hm.paired.retain hv
    obtain ⟨o₁, ho₁, hreleased₁, -⟩ := lives_retain (w := v) hcontainer place rfl
    obtain ⟨o₂, ho₂, hbody₂⟩ := hretained.shadows.bodies place o₁ ho₁ hreleased₁
    have hbody₁ : o₁.body = .composite c := by
      rw [ho'] at ho₂
      cases ho₂
      exact hbody₂.symm.trans hbody'
    refine .goesOn (hm.withHeap (hretained.putElement ho₁ hreleased₁ hbody₁
      (Key.isBare_datum (ok_of_orFault hkey')))
      (Heap.KeepsFunctions.setBody ho' ?_ _))
    intro block cells hclosure
    rw [hbody'] at hclosure
    cases hclosure
  | string buffer =>
    have hsame : m.store.heap.byteRange buffer (s.heap.datum key) (m.store.heap.datum v) =
        s.heap.byteRange buffer (s.heap.datum key) (s.heap.datum v) := by
      simp only [Heap.byteRange, show s.heap.text buffer = m.store.heap.text buffer from
        hm.paired.shadows.text buffer, show s.heap.datum v = m.store.heap.datum v from
        hm.paired.shadows.datum v]
    simp only [bind_assoc, pure_bind]
    refine (reads_ofStore (g := fun s' =>
      s'.heap.byteRange buffer (s.heap.datum key) (s'.heap.datum v)) hsame
      fun _ h => (ordinary_byteRange h).not_release).andThen hm fun range _ => ?_
    have hwritten := hm.paired.strings
      (m.store.heap.strings.modify buffer fun t => Heap.overwrite t range.1 range.2)
    rw [modifyHeap_eq]
    refine .goesOn (hm.withHeap ?_ (.of_objects rfl))
    unfold Heap.writeBytes
    rw [show s.heap.strings = m.store.heap.strings from hm.paired.shadows.strings]
    exact hwritten
  | _ => exact hother _

end Elements

/-! ## One instruction -/

section Step

variable {held : List Value} {m : Machine} {s : Store} {f : Frame} {below : List Frame}

/-- What is in registers lives. -/
theorem Mirrors.lives_registers (hm : Mirrors held m t) (hframes : m.frames = f :: below)
    {rs : List Int} {vs : List Value} (hvs : orOutside (rs.mapM f.activation.register?) = .ok vs) :
    ∀ v ∈ vs, m.store.heap.Lives v := by
  intro v hv
  obtain ⟨r, -, hr⟩ := f.activation.exists_register? hvs v hv
  exact hm.lives_register hframes (Activation.register_of_some hr)

variable (hm : Mirrors held m ⟨s, (f :: below).map Frame.activation⟩)
  (hframes : m.frames = f :: below)

include hm hframes

/-- The innermost frame goes on at another instruction. -/
theorem Mirrors.goTo (n : Nat) : Mirrors held (m.withFrames ({ f with counter := n } :: below))
      ⟨s, ({ f with counter := n } :: below).map Frame.activation⟩ := by
  have hpaired := hm.top_paired hframes
  have hrooted := hm.top_rooted hframes
  exact hm.withTop (g := { f with counter := n }) hframes hpaired
    ⟨hrooted.function, hrooted.other, hrooted.tidy⟩

/-- A value goes into a register before the frame goes on elsewhere. -/
theorem matches_give_goTo {start : Machine}
    {r : Int} (target : Int) (hv : m.store.heap.Lives v) (hpeak : m.peak = start.peak) :
    Matches held start ((do Machine.setRegister r v; Machine.goTo target : Action Unit) m)
      (Plain.give (f.activation.goTo target) (below.map Frame.activation) r (v, s)) := by
  cases hr : f.register? r with
  | none =>
    have hr' : ({ f with counter := target.toNat } : Frame).register? r = none := hr
    rw [bind_of_error (setRegister_of_none hframes hr)]
    rw [show f.activation.goTo target = ({ f with counter := target.toNat } : Frame).activation
      from rfl, Frame.give_of_none hr']
    exact .strays hpeak
  | some old =>
    have hr' : ({ f with counter := target.toNat } : Frame).register? r = some old := hr
    rw [bind_of_ok (setRegister_of_some hframes hr), goTo_eq target rfl]
    rw [show f.activation.goTo target = ({ f with counter := target.toNat } : Frame).activation
      from rfl, Frame.give_of_some hr']
    exact .goesOn ((hm.goTo hframes target.toNat).put rfl hv hr')

theorem object?_constant {k : Int} {d : Datum}
    (hd : orOutside (f.block.constant? k) = .ok d) : d.object? = none := by
  refine (hm.top_rooted hframes).tidy.constant? (k := k) ?_
  unfold orOutside at hd
  split at hd <;> cases hd
  assumption

/-- A constant goes into a register. -/
theorem matches_loadConstant (dest k : Int) :
    Matches held m ((Machine.loadConstant k >>= Machine.setRegister dest) m)
      (do let d ← orOutside (f.block.constant? k)
          Plain.give f.activation (below.map Frame.activation) dest (s.load d)) := by
  show Matches held m (((Machine.ofFrame (fun f => f.block.constant? k) >>= Machine.load) >>=
    Machine.setRegister dest) m) _
  rw [bind_assoc]
  exact (reads_ofFrame hframes).andThen hm fun d hd =>
    matches_load hm hframes dest (object?_constant hm hframes hd)

/-- A new object goes into a register. -/
theorem matches_create (dest : Int) {h : Heap} {body : Body}
    {value : Nat → Value} (hvalue : ∀ place, (value place).object? = some place)
    (hsuits : ∀ place, body.Suits (value place)) (hbody : body.Labelled)
    (hpaired : h.Paired s.heap (body.owned ++ (m.frames.flatMap Frame.owned ++ held))) :
    Matches held m
      (Machine.setRegister dest (value (h.newObject body).1) (m.withHeap (h.newObject body).2))
      (Plain.give f.activation (below.map Frame.activation) dest
        (value (s.create body).1, (s.create body).2)) := by
  obtain ⟨hm', hplace⟩ := hm.create hpaired hbody
  rw [show (s.create body).1 = (h.newObject body).1 from hplace]
  exact matches_give hm' hframes (lives_of_newObject (hvalue _) (hsuits _)) rfl

theorem matches_setResult (dest : Int) {result : Except Fault Datum}
    (hresult : ∀ d, result = .ok d → d.object? = none)
    (hfault : ∀ cause, result = .error cause → ¬ cause.IsRelease) :
    Matches held m (Machine.setResult dest result m)
      (do let d ← orFault result
          Plain.give f.activation (below.map Frame.activation) dest (s.load d)) := by
  cases result with
  | ok d => exact matches_load hm hframes dest (hresult d rfl)
  | error cause => exact .fails hm.kept (hfault cause rfl)

/-- An instruction does the same on a machine and on its mirror image. -/
theorem matches_step {perform : Reply → Action Value}
    (hperform : ∀ v, perform (.answer v) = pure v) (ins : Instruction) :
    Matches held m (Machine.step perform ins m)
      (Plain.step f.activation (below.map Frame.activation) s ins) := by
  have hgoTo : Matches held m
      ((do Machine.goTo ins.target; Machine.callArm ins.dest ins.k ins.tail : Action Unit) m)
      (Plain.callArm (f.activation.goTo ins.target) (below.map Frame.activation) s ins.dest ins.k
        ins.tail) := by
    rw [bind_of_ok (goTo_eq ins.target hframes)]
    exact (matches_callArm (hm.goTo hframes ins.target.toNat) rfl ins.dest ins.k ins.tail).of_start
      rfl rfl (by rw [hframes]; rfl) rfl rfl
  unfold Machine.step Plain.step
  cases ins.op with
  | nop => exact .goesOn hm
  | move =>
    exact (reads_register hframes ins.a).andThen hm fun v hv =>
      matches_give hm hframes (hm.lives_register hframes hv) rfl
  | loadConstant => exact matches_loadConstant hm hframes ins.dest ins.k
  | loadEscaped =>
    refine (reads_cellOf hframes ins.a).andThen hm fun place hplace => ?_
    have hlives := hm.lives_cellOf hframes hplace
    exact (hm.reads_readCell hlives).andThen hm fun v hv =>
      matches_give hm hframes (hm.lives_content hlives hv) rfl
  | storeEscaped =>
    refine (reads_cellOf hframes ins.a).andThen hm fun place hplace => ?_
    exact (reads_register hframes ins.b).andThen hm fun v hv =>
      matches_writeCell hm (hm.lives_cellOf hframes hplace) (hm.lives_register hframes hv)
  | makeCell =>
    have hnew : ∀ content, m.store.heap.Lives content → Matches held m
        ((Machine.newCell content >>= Machine.setRegister ins.dest) m)
        (Plain.give f.activation (below.map Frame.activation) ins.dest
          (.cell (s.create (.cell content)).1, (s.create (.cell content)).2)) :=
      fun content hcontent => matches_create hm hframes ins.dest (fun _ => rfl)
        (fun _ => trivial) trivial (hm.paired.retain hcontent)
    dsimp only
    split
    · exact (reads_register hframes ins.a).andThen hm fun v hv =>
        hnew v (hm.lives_register hframes hv)
    · exact hnew .empty (lives_of_none rfl)
  | loadCell =>
    refine (reads_cellIn hframes ins.a).andThen hm fun place hplace => ?_
    have hlives := hm.lives_cellIn hframes hplace
    exact (hm.reads_readCell hlives).andThen hm fun v hv =>
      matches_give hm hframes (hm.lives_content hlives hv) rfl
  | storeCell =>
    refine (reads_cellIn hframes ins.a).andThen hm fun place hplace => ?_
    exact (reads_register hframes ins.b).andThen hm fun v hv =>
      matches_writeCell hm (hm.lives_cellIn hframes hplace) (hm.lives_register hframes hv)
  | closure =>
    dsimp only
    unfold Machine.newFunction
    rw [bind_assoc]
    refine enterNested_andThen hm hframes fun place cells hcells => ?_
    refine matches_create hm hframes ins.dest (fun _ => rfl) (fun _ => trivial) trivial
      (hm.paired.retainAll fun v hv => ?_)
    obtain ⟨c, hc, rfl⟩ := List.mem_map.mp hv
    exact hcells c hc
  | call =>
    refine (reads_registers hframes ins.args).andThen hm fun arguments harguments => ?_
    refine (reads_register hframes ins.a).andThen hm fun callee hcallee => ?_
    exact matches_call hm hframes hperform ins.dest ins.tail (hm.lives_register hframes hcallee)
      (hm.lives_registers hframes harguments)
  | tailCall =>
    refine (reads_registers hframes ins.args).andThen hm fun arguments harguments => ?_
    refine (reads_register hframes ins.a).andThen hm fun callee hcallee => ?_
    exact matches_call hm hframes hperform ins.dest true (hm.lives_register hframes hcallee)
      (hm.lives_registers hframes harguments)
  | callIfEqual =>
    refine (reads_areEqual hm hframes ins.a ins.b).andThen hm fun equal _ => ?_
    cases equal with
    | false => exact .goesOn hm
    | true => exact hgoTo
  | constantIfEqual =>
    refine (reads_areEqual hm hframes ins.a ins.b).andThen hm fun equal _ => ?_
    cases equal with
    | false => exact .goesOn hm
    | true =>
      show Matches held m ((((Machine.ofFrame (fun f => f.block.constant? ins.k)) >>=
        Machine.load) >>= fun v => (do
          Machine.setRegister ins.dest v
          Machine.goTo ins.target : Action Unit)) m) _
      rw [bind_assoc]
      refine (reads_ofFrame hframes).andThen hm fun d hd => ?_
      obtain ⟨hvalue, hm'⟩ := hm.load d
      rw [bind_of_ok (load_eq d m), ← hvalue]
      refine matches_give_goTo hm' hframes ins.target (lives_of_none ?_) rfl
      rw [hvalue, object?_load, object?_constant hm hframes hd]
  | callArm => exact hgoTo
  | jump =>
    dsimp only
    rw [goTo_eq ins.target hframes]
    exact .goesOn (hm.goTo hframes ins.target.toNat)
  | matchFail =>
    refine (reads_register hframes ins.a).andThen hm fun v hv => ?_
    rw [show s.inspect v = m.store.inspect v from
      Store.inspect_eq hm.code hm.paired (hm.lives_register hframes hv)]
    exact .fails hm.kept fun h => h
  | makeComposite =>
    exact matches_create hm hframes ins.dest (fun _ => rfl)
      (fun _ => trivial) (fun e he => absurd he (Array.not_mem_empty e)) hm.paired
  | setElement =>
    refine (reads_register hframes ins.a).andThen hm fun container hcontainer => ?_
    refine (reads_register hframes ins.b).andThen hm fun key hkey => ?_
    refine (reads_register hframes ins.c).andThen hm fun v hv => ?_
    exact matches_assign hm (hm.lives_register hframes hcontainer)
      (hm.lives_register hframes hkey) (hm.lives_register hframes hv)
  | getElement =>
    refine (reads_register hframes ins.a).andThen hm fun container hcontainer => ?_
    refine (reads_register hframes ins.b).andThen hm fun key hkey => ?_
    exact matches_element hm hframes ins.dest (hm.lives_register hframes hcontainer)
      (hm.lives_register hframes hkey)
  | negate =>
    refine (reads_register hframes ins.a).andThen hm fun v _ => ?_
    rw [show s.heap.datum v = m.store.heap.datum v from hm.paired.shadows.datum v]
    exact matches_setResult hm hframes ins.dest
      (fun _ h => Datum.object?_of_isBare (Datum.isBare_negate h))
      fun _ h => (Datum.ordinary_negate h).not_release
  | operate op =>
    refine (reads_register hframes ins.a).andThen hm fun v _ => ?_
    refine (reads_register hframes ins.b).andThen hm fun w _ => ?_
    rw [show s.heap.datum v = m.store.heap.datum v from hm.paired.shadows.datum v,
      show s.heap.datum w = m.store.heap.datum w from hm.paired.shadows.datum w]
    exact matches_setResult hm hframes ins.dest
      (fun _ h => Datum.object?_of_isBare (Operator.isBare_apply h))
      fun _ h => (Operator.ordinary_apply h).not_release
  | unknown code => exact .fails hm.kept fun h => h

end Step

end Inkwell
