import Inkwell.Text.Base64
import Inkwell.Yaml.Timestamp

/-!
# Nodes of a configuration document

A document is a tree of scalars, sequences and mappings, in which an alias stands for a node with an
anchor. A scalar is a text; one without quotes may also mean nothing, a truth value or a number, and
a tag can tell what it means.
-/

namespace Inkwell

namespace Yaml

/-- A scalar: whether it is without quotes, its tag or an empty text, and what it says. -/
structure Scalar where
  plain : Bool := true
  tag : Text := ""
  text : Text := ""
deriving Inhabited, DecidableEq

inductive Node where
  | scalar (s : Scalar)
  | sequence (items : List Node)
  /-- A mapping: a key, its value, the next key, and so on. -/
  | mapping (items : List Node)
  /-- An alias with a number of its own, and the name and the place of its anchor. -/
  | alias (number : Nat) (name : Text) (anchor : Nat)
deriving Inhabited

def Node.none : Node := .scalar {}

/-- A document: its node, if it has one, and the nodes with anchors. -/
structure Document where
  root : Option Node
  anchors : Array Node
deriving Inhabited

inductive Meaning where
  | nothing
  | boolean (b : Bool)
  | integer (n : Int)
  | fraction (n : Number)
  | moment
  | text (t : Text)
deriving Inhabited

/-! ## Numbers -/

def digits? (base : Nat) (bs : List UInt8) : Option Nat :=
  if bs.isEmpty then none
  else bs.foldlM (fun n b => (Number.digitValue? base b).map (n * base + ·)) 0

/-- The natural number that bytes spell; the beginning says in which base. -/
def natural? : List UInt8 → Option Nat
  | 48 :: 120 :: rest | 48 :: 88 :: rest => digits? 16 rest
  | 48 :: 98 :: rest | 48 :: 66 :: rest => digits? 2 rest
  | 48 :: 111 :: rest | 48 :: 79 :: rest => digits? 8 rest
  | 48 :: b :: rest => digits? 8 (b :: rest)
  | bs => digits? 10 bs

/-- The integer that bytes spell: one of sixty-four bits with a sign or, without, a natural one. -/
def integer? : List UInt8 → Option Int
  | 45 :: rest =>
    match natural? rest with
    | some n => if n ≤ 1 <<< 63 then some (-n) else none
    | none => none
  | 43 :: rest =>
    match natural? rest with
    | some n => if n < 1 <<< 63 then some n else none
    | none => none
  | bs =>
    match natural? bs with
    | some n => if n < 1 <<< 64 then some n else none
    | none => none

def isExponent : List UInt8 → Bool
  | [] => true
  | e :: rest =>
    let digits :=
      match rest with
      | 43 :: digits | 45 :: digits => digits
      | digits => digits
    (e = 101 || e = 69) && !digits.isEmpty && digits.all Number.isDigitByte

def isFraction (bs : List UInt8) : Bool :=
  let whole := bs.takeWhile Number.isDigitByte
  match bs.dropWhile Number.isDigitByte with
  | 46 :: rest =>
    (!whole.isEmpty || !(rest.takeWhile Number.isDigitByte).isEmpty) &&
      isExponent (rest.dropWhile Number.isDigitByte)
  | rest => !whole.isEmpty && isExponent rest

def isSignedFraction : List UInt8 → Bool
  | 43 :: rest | 45 :: rest => isFraction rest
  | bs => isFraction bs

/-- The integer that bytes spell in base two or eight with the sign behind the mark of the base. -/
def lateSign? : List UInt8 → Option Int
  | 48 :: mark :: sign :: rest =>
    let base := if mark = 98 then 2 else 8
    match if mark = 98 || mark = 111 then digits? base rest else none with
    | some n =>
      if sign = 45 && n ≤ 1 <<< 63 then some (-n)
      else if sign = 43 && n < 1 <<< 63 then some n
      else none
    | none => none
  | _ => none

/-- What a scalar without quotes that starts like a number means. Underscores may part digits. -/
def numeral (t : Text) : Meaning :=
  let bs := t.bytes.filter (· ≠ 95)
  match integer? bs with
  | some n => .integer n
  | none =>
    match if isSignedFraction bs then Number.read? (Text.ofBytes bs) else none with
    | some n => .fraction n
    | none =>
      match lateSign? bs with
      | some n => .integer n
      | none => .text t

/-! ## Words -/

def words : List (List String × Meaning) :=
  [(["", "~", "null", "Null", "NULL"], .nothing),
    (["true", "True", "TRUE"], .boolean true),
    (["false", "False", "FALSE"], .boolean false),
    ([".nan", ".NaN", ".NAN"], .fraction Number.undefined),
    ([".inf", ".Inf", ".INF", "+.inf", "+.Inf", "+.INF"],
      .fraction (Number.ofMagnitudeBits false Number.infiniteBits)),
    (["-.inf", "-.Inf", "-.INF"], .fraction (Number.ofMagnitudeBits true Number.infiniteBits))]

def meaning (t : Text) : Meaning :=
  match words.find? fun w => w.1.any fun word => (word : Text) = t with
  | some w => w.2
  | none =>
    match t.bytes with
    | 46 :: _ =>
      match Number.read? t with
      | some n => .fraction n
      | none => .text t
    | b :: _ => if Number.isDigitByte b || b = 43 || b = 45 then numeral t else .text t
    | [] => .nothing

/-! ## Tags -/

/-- What a text with a tag means, if it can have that tag. Texts with tags that mean nothing here
are just texts. -/
def taggedMeaning? (tag t : Text) : Option Meaning :=
  if tag = ("!!binary" : Text) then (Text.ofBase64? t).map Meaning.text
  else if tag = ("!!timestamp" : Text) then if isTimestamp t then some .moment else none
  else if tag = ("!!null" : Text) then
    match meaning t with
    | .nothing => some .nothing
    | _ => none
  else if tag = ("!!bool" : Text) then
    match meaning t with
    | .boolean b => some (.boolean b)
    | _ => none
  else if tag = ("!!int" : Text) then
    match meaning t with
    | .integer n => some (.integer n)
    | _ => none
  else if tag = ("!!float" : Text) then
    match meaning t with
    | .fraction n => some (.fraction n)
    | .integer n => if n < (1 <<< 63 : Nat) then some (.fraction (Number.ofInt n)) else none
    | _ => none
  else some (.text t)

def Scalar.meaning? (s : Scalar) : Option Meaning :=
  if !s.tag.isEmpty then taggedMeaning? s.tag s.text
  else if s.plain then some (meaning s.text)
  else some (.text s.text)

/-- Whether a node, as a key, asks to take over the entries of another mapping. -/
def Node.isMerge : Node → Bool
  | .scalar s =>
    s.text = ("<<" : Text) && (s.tag = ("!!merge" : Text) || (s.plain && s.tag.isEmpty))
  | _ => false

end Yaml

end Inkwell
