import Mathlib
import Inkwell.Machine.Native
import Inkwell.Proofs.Heap.Contents

/-!
# Data that are no objects

Operators give numbers, strings and truth values, and the keys of composites are numbers and strings.
So what an operation gives, and what the keys of a composite are, never refers to an object. A new
list of such data takes no owner from anything (`newList_eq`).
-/

namespace Inkwell

variable {d r : Datum} {op : Operator}

/-- The place of the object a datum refers to, if it refers to one. -/
def Datum.object? : Datum → Option Nat
  | composite place | function place | cell place => some place
  | _ => none

theorem Heap.object?_load (h : Heap) (d : Datum) : (h.load d).1.object? = d.object? := by
  cases d <;> rfl

theorem Heap.objects_load (h : Heap) (d : Datum) : (h.load d).2.objects = h.objects := by
  cases d <;> rfl

/-- A number, a string, a truth value or the empty value. -/
def Datum.isBare : Datum → Bool
  | empty | number _ | boolean _ | string _ => true
  | _ => false

theorem Datum.object?_of_isBare (h : d.isBare = true) : d.object? = none := by
  cases d <;> first | rfl | cases h

theorem Datum.isBare_negate (h : d.negate = .ok r) : r.isBare = true := by
  cases d <;> cases h <;> rfl

theorem Operator.isBare_onNumbers {x y : Number} (h : op.onNumbers x y = .ok r) : r.isBare = true :=
    by
  unfold onNumbers at h
  split at h
  case h_4 | h_5 =>
    split at h <;> cases h
    rfl
  all_goals
    cases h
    rfl

theorem Operator.isBare_onStrings {x y : Text} (h : op.onStrings x y = some r) : r.isBare = true :=
    by
  unfold onStrings at h
  split at h <;> cases h <;> rfl

theorem Operator.isBare_apply {a b : Datum} (h : op.apply a b = .ok r) :
    r.isBare = true := by
  unfold apply at h
  split at h
  · cases h
    rfl
  · split at h
    · exact isBare_onNumbers h
    · split at h <;> cases h
      rfl
    · split at h
      · rename_i found hfound
        cases h
        exact isBare_onStrings hfound
      · cases h
    · cases h

theorem Key.isBare_datum {key : Key} (h : Key.ofDatum d = .ok key) :
    key.datum.isBare = true := by
  unfold ofDatum at h
  split at h
  · split at h <;> cases h <;> rfl
  · split at h <;> cases h <;> rfl
  · cases h

theorem Heap.isBare_byteAt {h : Heap} {buffer : Nat} {key : Datum}
    (hd : h.byteAt buffer key = .ok d) : d.isBare = true := by
  unfold byteAt at hd
  cases hindex : key.byteIndex with
  | error cause =>
    rw [hindex] at hd
    cases hd
  | ok i =>
    rw [hindex] at hd
    dsimp only [bind, Except.bind] at hd
    split at hd <;> cases hd <;> rfl

/-! ## The keys of a composite -/

namespace Composite

/-- Every key outside the dense part is a number, a string or the like. -/
def Labelled (c : Composite) : Prop := ∀ e ∈ c.sparse, e.key.isBare = true

variable {c : Composite}

theorem Labelled.settle (h : c.Labelled) (rounds : Nat) : (settle rounds c).Labelled := by
  induction rounds generalizing c with
  | zero => exact h
  | succ rounds ih =>
    unfold Composite.settle
    split
    · exact h
    · split
      · exact h
      · refine ih fun e he => h e ?_
        unfold Array.eraseIdxIfInBounds at he
        split at he
        · exact Array.mem_of_mem_eraseIdx he
        · exact he

theorem Labelled.setSparse (h : c.Labelled) {key : Datum} (hkey : key.isBare = true) (label : Text)
    (v : Value) : (c.setSparse label key v).1.Labelled := by
  unfold Composite.setSparse
  split
  · rename_i place _
    intro e he
    obtain ⟨i, hi⟩ := Array.mem_iff_getElem?.mp he
    simp only [Array.getElem?_modify] at hi
    split at hi
    · obtain ⟨e', he', rfl⟩ := Option.map_eq_some_iff.mp hi
      exact h e' (Array.mem_of_getElem? he')
    · exact h e (Array.mem_of_getElem? hi)
  · intro e he
    rcases Array.mem_push.mp he with he | rfl
    · exact h e he
    · exact hkey

theorem Labelled.set (h : c.Labelled) {key : Key} (hkey : key.datum.isBare = true) (v : Value) :
    (c.set key v).1.Labelled := by
  unfold Composite.set
  cases key with
  | label text given => exact h.setSparse hkey _ v
  | index i =>
    dsimp only
    split
    · exact h
    · split
      · exact Labelled.settle (c := { c with dense := c.dense.push v }) h _
      · exact h.setSparse hkey _ v

theorem Labelled.keys (h : c.Labelled) : ∀ d ∈ c.keys, d.isBare = true := by
  intro d hd
  simp only [Composite.keys, List.mem_append, List.mem_map, Array.mem_toList_iff] at hd
  rcases hd with ⟨i, -, rfl⟩ | ⟨e, he, rfl⟩
  · rfl
  · exact h e he

end Composite

/-- The keys of a body are numbers, strings and the like. -/
def Body.Labelled : Body → Prop
  | .composite c => c.Labelled
  | _ => True

namespace Heap

/-- The keys of all composites are numbers, strings and the like. -/
def Labelled (h : Heap) : Prop :=
  ∀ (place : Nat) (o : Object), h.objects[place]? = some o → o.body.Labelled

namespace Labelled

variable {h : Heap}

variable (hlabelled : h.Labelled)

include hlabelled

theorem of_objects {h' : Heap} (hobjects : h'.objects = h.objects) : h'.Labelled :=
  fun place o ho => hlabelled place o (hobjects ▸ ho)

theorem modified {place : Nat} {f : Object → Object}
    (hf : ∀ o, o.body.Labelled → (f o).body.Labelled) : (h.modified place f).Labelled := by
  intro other o ho
  rw [getElem?_modified] at ho
  split at ho
  · obtain ⟨o', ho', rfl⟩ := Option.map_eq_some_iff.mp ho
    exact hf o' (hlabelled other o' ho')
  · exact hlabelled other o ho

theorem retain (v : Value) : (h.retain v).Labelled := by
  unfold Heap.retain
  split
  · exact hlabelled.modified fun _ ho => ho
  · exact hlabelled

theorem retainAll (vs : List Value) : (h.retainAll vs).Labelled := by
  induction vs generalizing h with
  | nil => exact hlabelled
  | cons v rest ih => exact ih (hlabelled.retain v)

theorem releaseAll (work : List Value) : (h.releaseAll work).Labelled := by
  fun_induction Heap.releaseAll h work with
  | case1 h => exact hlabelled
  | case2 h v rest hfound ih => exact ih hlabelled
  | case3 h v rest place o hfound ih =>
    refine ih (hlabelled.modified fun o ho => ?_)
    unfold Object.disown
    split
    · cases hbody : o.body with
      | composite c => exact fun e he => absurd he (Array.not_mem_empty e)
      | _ => trivial
    · exact ho

theorem newObject {body : Body} (hbody : body.Labelled) : (h.newObject body).2.Labelled := by
  intro place o ho
  simp only [Heap.newObject, Array.getElem?_push] at ho
  split at ho
  · cases ho
    exact hbody
  · exact hlabelled place o ho

theorem composite {place : Nat} {c : Composite} (hc : h.composite place = .ok c) : c.Labelled := by
  unfold Heap.composite at hc
  split at hc
  · rename_i ho
    cases hc
    exact hlabelled place _ ho
  · cases hc

end Labelled

end Heap

/-! ## New lists -/

namespace Native

variable {elements : List Datum}

/-- The values of data, and the buffers with those of their strings. -/
def loadAll : Array Text → List Datum → List Value × Array Text
  | strings, [] => ([], strings)
  | strings, d :: rest =>
    let loaded := Heap.load { strings } d
    let others := loadAll loaded.2.strings rest
    (loaded.1 :: others.1, others.2)

theorem load_eq (h : Heap) (d : Datum) :
    h.load d = ((Heap.load { strings := h.strings } d).1,
      { h with strings := (Heap.load { strings := h.strings } d).2.strings }) := by
  cases d <;> rfl

theorem object?_loadAll (helements : ∀ d ∈ elements, d.object? = none) (strings : Array Text) :
    ∀ v ∈ (loadAll strings elements).1, v.object? = none := by
  induction elements generalizing strings with
  | nil => exact nofun
  | cons d rest ih =>
    intro v hv
    rcases List.mem_cons.mp hv with rfl | hv
    · rw [Heap.object?_load]
      exact helements d (.head _)
    · exact ih (fun d hd => helements d (.tail _ hd)) _ v hv

theorem modify_push_size {α : Type} (xs : Array α) (a : α) (f : α → α) :
    (xs.push a).modify xs.size f = xs.push (f a) := by
  refine Array.ext_getElem? fun i => ?_
  simp only [Array.getElem?_modify, Array.getElem?_push]
  by_cases hi : xs.size = i
  · simp [hi]
  · simp [hi, Ne.symm hi]

/-- The rest of a list is put behind the elements that are there. -/
theorem foldl_putElement_eq (helements : ∀ d ∈ elements, d.object? = none) (strings : Array Text)
    (objects : Array Object) (dense : Array Value) :
    (elements.zipIdx dense.size).foldl (fun h (d, i) =>
        (((Heap.load h d).2.retain (Heap.load h d).1).putElement objects.size (.index i)
          (Heap.load h d).1))
      { strings, objects := objects.push { body := .composite { dense } } } =
    { strings := (loadAll strings elements).2
      objects := objects.push { body := .composite {
        dense := dense ++ (loadAll strings elements).1.toArray } } } := by
  induction elements generalizing strings dense with
  | nil => simp [loadAll]
  | cons d rest ih =>
    have hplain : (Heap.load { strings } d).1.object? = none := by
      rw [Heap.object?_load]
      exact helements d (.head _)
    have hnext := fun v strings => ih (fun d hd => helements d (.tail _ hd)) strings (dense.push v)
    simp only [Array.size_push] at hnext
    rw [List.zipIdx_cons, List.foldl_cons, loadAll]
    dsimp only
    rw [load_eq]
    generalize Heap.load { strings } d = loaded at hplain
    obtain ⟨v, strings', _⟩ := loaded
    have hset : ({ dense } : Composite).set (.index dense.size) v =
        ({ dense := dense.push v }, none) := by
      simp [Composite.set, Composite.settle]
    rw [Heap.retain_of_none hplain, Heap.putElement_eq _ _ Array.getElem?_push_size rfl, hset]
    simp only [Option.toList_none, Heap.releaseAll_nil, Heap.modified, modify_push_size]
    rw [hnext]
    simp

/-- A list of data that are no objects is a new object that holds them. -/
theorem newList_eq (helements : ∀ d ∈ elements, d.object? = none) (h : Heap) :
    newList elements h = (.composite h.objects.size,
      (Heap.newObject { h with strings := (loadAll h.strings elements).2 }
        (.composite { dense := (loadAll h.strings elements).1.toArray })).2) := by
  have hfold := foldl_putElement_eq helements h.strings h.objects #[]
  simp only [Array.empty_append] at hfold
  unfold newList
  exact congrArg (Prod.mk _) hfold

end Native

end Inkwell
