import Mathlib
import Inkwell.Machine.Native
import Inkwell.Proofs.Heap.Functions

/-!
# What the standard functions do

A standard function looks at its first argument and does one thing: it gives a value, a new string or
a new list, writes to the output, or refuses. What it does depends only on what it can see of the
argument (`Sight`), so two machines on which the argument looks the same get the same from it.
-/

namespace Inkwell

/-- A value without the place of its object. -/
def Value.kind : Value → Value
  | composite _ => .composite 0
  | function _ => .function 0
  | cell _ => .cell 0
  | v => v

/-- What a standard function can see of its argument. -/
structure Sight where
  kind : Value
  type : Text
  /-- The bytes of a string. -/
  text : Text
  /-- The value as text. -/
  shown : Text
  /-- The number of elements of a composite, and its keys. -/
  elements : Except Fault (Nat × List Datum)

/-- What a standard function can see of a value. -/
def Store.sight (s : Store) (v : Value) : Sight where
  kind := v.kind
  type := s.heap.typeName v
  text :=
    match v with
    | .string buffer => s.heap.text buffer
    | _ => ""
  shown := s.display v
  elements :=
    match v with
    | .composite place => (s.heap.composite place).map fun c => (c.size, c.keys)
    | _ => .ok (0, [])

/-- What a standard function does. -/
inductive Deed where
  /-- It gives a value that is no object. -/
  | answer (v : Value)
  /-- It gives a new string. -/
  | spell (t : Text)
  /-- It writes a text and gives a value that is no object. -/
  | write (t : Text) (v : Value)
  /-- It gives a new composite. -/
  | list (elements : List Datum)
  | refuse (cause : Fault)

/-- What a deed makes of a store. -/
def Deed.perform : Deed → EStateM Fault Store Reply
  | answer v => fun s => .ok (.answer v) s
  | spell t => Native.answerText t
  | write t v => do
    Native.write t
    return .answer v
  | list elements => fun s =>
    .ok (.answer (Native.newList elements s.heap).1)
      { s with heap := (Native.newList elements s.heap).2 }
  | refuse cause => fun s => .error cause s

/-- A deed gives no object but a list of the keys that are seen, and refuses with a message of its
own unless the elements could not be seen. -/
def Deed.Fits (x : Sight) : Deed → Prop
  | answer v => v.object? = none
  | spell _ => True
  | write _ v => v.object? = none
  | list elements => ∃ n, x.elements = .ok (n, elements)
  | refuse cause => (∃ message, cause = .native message) ∨ x.elements = .error cause

/-- The only string that a deed gives is its argument, unless it makes one. -/
def Deed.Passes (x : Sight) : Deed → Prop
  | answer v => ∀ buffer, v ≠ .string buffer
  | write _ v => v = x.kind
  | _ => True

namespace Native

/-- A function of the host does what it does because of what it sees of its argument. -/
structure Does (n : Native) (deed : Sight → Deed) : Prop where
  run : ∀ arguments s, n.run arguments s = (deed (s.sight (argument arguments))).perform s
  fits : ∀ x, (deed x).Fits x

/-- The refusal of an argument of the wrong type. -/
def unfit (function expected : Text) (x : Sight) : Deed :=
  .refuse (.native (function ++ "() expects a " ++ expected ++ ", got " ++ x.type))

theorem fits_unfit (function expected : Text) (x : Sight) : (unfit function expected x).Fits x :=
  .inl ⟨_, rfl⟩

theorem bind_ok {α β : Type} {x : EStateM Fault Store α} {next : α → EStateM Fault Store β} {a : α}
    {s s' : Store} (h : x s = .ok a s') : (x >>= next) s = next a s' := by
  show EStateM.bind x next s = _
  simp only [EStateM.bind, h]

theorem get_eq (s : Store) : (get : EStateM Fault Store Store) s = .ok s s := rfl

def outDeed (x : Sight) : Deed :=
  match x.kind with
  | .string buffer => .write x.text (.string buffer)
  | _ => unfit "out" "string" x

theorem out_does : out.Does outDeed where
  run arguments s := by
    unfold out outDeed Store.sight
    dsimp only
    cases argument arguments <;> rfl
  fits x := by
    unfold outDeed
    split
    · exact rfl
    · exact fits_unfit _ _ x

def stringDeed (x : Sight) : Deed := .spell x.shown

theorem string_does : string.Does stringDeed where
  run _ _ := rfl
  fits _ := trivial

def numberDeed (x : Sight) : Deed :=
  match x.kind with
  | .number n => .answer (.number n)
  | .boolean b => .answer (.number (if b then Number.ofNat 1 else Number.ofNat 0))
  | .string _ =>
    match Number.read? x.text.trim with
    | some n => .answer (.number n)
    | none => .answer .empty
  | _ => .answer .empty

theorem number_does : number.Does numberDeed where
  run arguments s := by
    unfold number numberDeed Store.sight
    dsimp only
    cases argument arguments with
    | string buffer =>
      dsimp only [Value.kind]
      rw [bind_ok (get_eq s)]
      cases Number.read? (s.heap.text buffer).trim <;> rfl
    | _ => rfl
  fits x := by
    unfold numberDeed
    repeat' split
    all_goals rfl

def lenDeed (x : Sight) : Deed :=
  match x.kind with
  | .composite _ =>
    match x.elements with
    | .ok (n, _) => .answer (.number (Number.ofNat n))
    | .error cause => .refuse cause
  | .string _ => .answer (.number (Number.ofNat x.text.size))
  | _ => unfit "len" "composite or string" x

theorem len_does : len.Does lenDeed where
  run arguments s := by
    unfold len lenDeed Store.sight
    dsimp only
    cases argument arguments with
    | composite place =>
      dsimp only [Value.kind]
      rw [bind_ok (get_eq s)]
      cases s.heap.composite place <;> rfl
    | _ => rfl
  fits x := by
    unfold lenDeed
    split
    · split
      · exact rfl
      · rename_i cause hcause
        exact .inr hcause
    · exact rfl
    · exact fits_unfit _ _ x

def charDeed (x : Sight) : Deed :=
  match x.kind with
  | .number n => .spell (Text.ofBytes [n.toInt64.toUInt64.toUInt8])
  | _ => unfit "char" "number" x

theorem char_does : char.Does charDeed where
  run arguments s := by
    unfold char charDeed Store.sight
    dsimp only
    cases argument arguments <;> rfl
  fits x := by
    unfold charDeed
    split
    · trivial
    · exact fits_unfit _ _ x

def pointDeed (x : Sight) : Deed :=
  match x.kind with
  | .string _ =>
    match x.text.bytes with
    | b :: _ => .answer (.number (Number.ofNat b.toNat))
    | [] => .refuse (.native "point() of empty string")
  | _ => unfit "point" "string" x

theorem point_does : point.Does pointDeed where
  run arguments s := by
    unfold point pointDeed Store.sight
    dsimp only
    cases argument arguments with
    | string buffer =>
      show ((match (s.heap.text buffer).bytes with
        | b :: _ => answerNumber (Number.ofNat b.toNat)
        | [] => refuse "point() of empty string" : EStateM Fault Store Reply) s) = _
      dsimp only [Value.kind]
      cases (s.heap.text buffer).bytes <;> rfl
    | _ => rfl
  fits x := by
    unfold pointDeed
    split
    · split
      · exact rfl
      · exact .inl ⟨_, rfl⟩
    · exact fits_unfit _ _ x

def typeDeed (x : Sight) : Deed := .spell x.type

theorem type_does : type.Does typeDeed where
  run _ _ := rfl
  fits _ := trivial

def keysDeed (x : Sight) : Deed :=
  match x.kind with
  | .composite _ =>
    match x.elements with
    | .ok (_, keys) => .list keys
    | .error cause => .refuse cause
  | _ => unfit "keys" "composite" x

theorem keys_does : keys.Does keysDeed where
  run arguments s := by
    unfold keys keysDeed Store.sight
    dsimp only
    cases argument arguments with
    | composite place =>
      dsimp only [Value.kind]
      rw [bind_ok (get_eq s)]
      cases s.heap.composite place <;> rfl
    | _ => rfl
  fits x := by
    unfold keysDeed
    split
    · split
      · rename_i n keys hkeys
        exact ⟨n, hkeys⟩
      · rename_i cause hcause
        exact .inr hcause
    · exact fits_unfit _ _ x

/-- Every standard function does one thing, which depends on what it sees of its argument. -/
theorem does_of_mem {n : Native} (hn : n ∈ Natives.standard) :
    ∃ deed, n.Does deed ∧ ∀ x, (deed x).Passes x := by
  have hlist : n ∈ [out, string, number, len, char, point, type, keys] := by
    simpa [Natives.standard] using hn
  simp only [List.mem_cons, List.not_mem_nil, or_false] at hlist
  rcases hlist with rfl | rfl | rfl | rfl | rfl | rfl | rfl | rfl
  · refine ⟨_, out_does, fun x => ?_⟩
    unfold outDeed
    split
    · rename_i buffer hkind
      exact hkind.symm
    · trivial
  · exact ⟨_, string_does, fun _ => trivial⟩
  · refine ⟨_, number_does, fun x => ?_⟩
    unfold numberDeed
    repeat' split
    all_goals exact nofun
  · refine ⟨_, len_does, fun x => ?_⟩
    unfold lenDeed
    repeat' split
    all_goals first | exact fun _ h => by cases h | trivial
  · refine ⟨_, char_does, fun x => ?_⟩
    unfold charDeed
    split <;> trivial
  · refine ⟨_, point_does, fun x => ?_⟩
    unfold pointDeed
    repeat' split
    all_goals first | exact fun _ h => by cases h | trivial
  · exact ⟨_, type_does, fun _ => trivial⟩
  · refine ⟨_, keys_does, fun x => ?_⟩
    unfold keysDeed
    repeat' split
    all_goals trivial

theorem does_of_standard {id : Int} {n : Native}
    (h : (if id < 0 then none else Natives.standard[id.toNat]?) = some n) :
    ∃ deed, n.Does deed ∧ ∀ x, (deed x).Passes x := by
  split at h
  · cases h
  · exact does_of_mem (Array.mem_of_getElem? h)

/-- A deed gives a value at once or refuses; it starts nothing. -/
theorem answers_of_mem {n : Native} (hn : n ∈ Natives.standard) (arguments : List Value) (s : Store) :
    (∃ v s', n.run arguments s = .ok (.answer v) s') ∨ ∃ cause, n.run arguments s = .error cause s := by
  obtain ⟨deed, hdoes, -⟩ := does_of_mem hn
  rw [hdoes.run]
  cases deed (s.sight (argument arguments)) with
  | refuse cause => exact .inr ⟨cause, rfl⟩
  | write t v =>
    obtain ⟨code, heap, text, refusal⟩ := s
    cases refusal with
    | none => exact .inl ⟨v, _, rfl⟩
    | some reason => exact .inr ⟨_, rfl⟩
  | _ => exact .inl ⟨_, _, rfl⟩

theorem addsNoFunction_newList (elements : List Datum) (h : Heap) :
    h.AddsNoFunction (newList elements h).2 := by
  unfold newList
  refine List.foldlRecOn (motive := fun h' => h.AddsNoFunction h') _ _
    (Heap.addsNoFunction_push fun _ _ hbody => (by cases hbody)) ?_
  intro h' hh' pair _
  exact ((hh'.trans (Heap.addsNoFunction_load h' pair.1)).trans (Heap.addsNoFunction_retain _ _)).trans
    (Heap.addsNoFunction_putElement _ _ _ _)

end Native

end Inkwell
