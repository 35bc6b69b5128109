import Mathlib
import Inkwell.Heap.Composite
import Inkwell.Value.Operator

/-!
# Kinds of faults

Some faults say that something has been released that is still in use, and some that code does not
belong to the machine it runs on. Operations on data fail for other reasons.
-/

namespace Inkwell

variable {d : Datum} {cause : Fault}

namespace Fault

/-- A fault that something which has been released causes. -/
def IsRelease : Fault → Prop
  | releasedComposite | releasedCell | releasedFunction => True
  | _ => False

/-- A fault that code causes which does not belong to the machine. -/
def IsInternal : Fault → Prop
  | notACell _ | bindOutOfRange _ | notABlock _ | unknownOpcode _ | unknownNative _ => True
  | _ => False

/-- A fault that neither something released nor the code causes. -/
structure IsOrdinary (cause : Fault) : Prop where
  not_release : ¬ cause.IsRelease
  not_internal : ¬ cause.IsInternal

end Fault

theorem Key.ordinary_ofDatum (h : Key.ofDatum d = .error cause) :
    cause.IsOrdinary := by
  unfold Key.ofDatum at h
  split at h
  · split at h <;> cases h
  · split at h <;> cases h
  · cases h
    exact ⟨id, id⟩

theorem Datum.ordinary_byteIndex (h : d.byteIndex = .error cause) :
    cause.IsOrdinary := by
  unfold Datum.byteIndex at h
  split at h
  · split at h <;> cases h
    exact ⟨id, id⟩
  · split at h <;> cases h
    exact ⟨id, id⟩
  · cases h
    exact ⟨id, id⟩

theorem Heap.ordinary_byteAt {h : Heap} {buffer : Nat} {key : Datum}
    (herror : h.byteAt buffer key = .error cause) : cause.IsOrdinary := by
  unfold Heap.byteAt at herror
  cases hindex : key.byteIndex with
  | error cause' =>
    rw [hindex] at herror
    cases herror
    exact Datum.ordinary_byteIndex hindex
  | ok i =>
    rw [hindex] at herror
    dsimp only [bind, Except.bind] at herror
    split at herror <;> cases herror

theorem Heap.ordinary_byteRange {h : Heap} {buffer : Nat} {key value : Datum}
    (herror : h.byteRange buffer key value = .error cause) : cause.IsOrdinary := by
  unfold Heap.byteRange at herror
  cases hindex : key.byteIndex with
  | error cause' =>
    rw [hindex] at herror
    cases herror
    exact Datum.ordinary_byteIndex hindex
  | ok i =>
    rw [hindex] at herror
    cases value with
    | string source =>
      change (if (h.text buffer).size < i
        then Except.error (Fault.stringIndexOutOfRange i (h.text buffer).size)
        else Except.ok (i, source)) = Except.error cause at herror
      split at herror <;> cases herror
      exact ⟨id, id⟩
    | _ =>
      cases herror
      exact ⟨id, id⟩

theorem Datum.ordinary_negate (h : d.negate = .error cause) :
    cause.IsOrdinary := by
  cases d <;> cases h <;> exact ⟨id, id⟩

theorem Operator.ordinary_apply {op : Operator} {a b : Datum} (h : op.apply a b = .error cause) :
    cause.IsOrdinary := by
  unfold Operator.apply at h
  split at h
  · cases h
  · split at h
    · unfold Operator.onNumbers at h
      repeat' split at h
      all_goals cases h
      all_goals exact ⟨id, id⟩
    · split at h <;> cases h
      exact ⟨id, id⟩
    · split at h <;> cases h
      exact ⟨id, id⟩
    · cases h
      exact ⟨id, id⟩

end Inkwell
