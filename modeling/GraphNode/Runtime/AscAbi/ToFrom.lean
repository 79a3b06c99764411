import GraphNode.Runtime.AscAbi.Class
import GraphNode.Runtime.AscAbi.Utf16
/-!
# The bridges of `to_from.rs`

`ToAscObj` and `FromAscObj` for byte buffers, `H160`, `U256`, strings, arrays of pointers and
`ethabi::Token`. A `ToAscObj` builds the object the host writes, allocating what it points
to; a `FromAscObj` turns an object read from the heap back into a host value, panicking where
the source asserts or expects. `heap.asc_new(x)` is `to_asc_obj` followed by the allocation
of the object, and `heap.asc_get(ptr)` the read of the object followed by `from_asc_obj`.

Decoding a token recurses through the element pointers of its arrays with no bound in the
source; `ascGetToken` bounds the depth of that recursion by its fuel.
-/

namespace GraphNode.Runtime

/-- `ethereum_types::H160`: 20 bytes. -/
structure H160 where
  bytes : List UInt8
  length_eq : bytes.length = 20
  deriving DecidableEq, Repr

/-- `ethereum_types::U256`: four `u64` words, least significant first. -/
structure U256 where
  words : List UInt64
  length_eq : words.length = 4
  deriving DecidableEq, Repr

/-- `ethabi::Token`. -/
inductive Token
  | address (a : H160)
  | fixedBytes (b : List UInt8)
  | bytes (b : List UInt8)
  | int (i : U256)
  | uint (u : U256)
  | bool (b : Bool)
  | string (s : String)
  | fixedArray (ts : List Token)
  | array (ts : List Token)
  deriving Repr

/-! ## Buffers, addresses, integers and strings -/

section Leaves

variable {α : Type}

/-- `ToAscObj<ArrayBuffer<T>> for [T]`. -/
def arrayBufferToAscObj (xs : List α) : ArrayBuffer α := ⟨xs⟩

/-- `FromAscObj<ArrayBuffer<T>> for [T; n]`, the family of fixed-size arrays: the buffer must
hold exactly `n` elements. -/
def fixedFromAscObj (n : Nat) (ab : ArrayBuffer α) : Outcome { l : List α // l.length = n } :=
  if h : ab.content.length = n then .ok ⟨ab.content, h⟩
  else .panic (.assertion s!"wrong ArrayBuffer length, expected {n}")

/-- `FromAscObj<ArrayBuffer<T>> for [T; 20]`. -/
def array20FromAscObj (ab : ArrayBuffer α) : Outcome { l : List α // l.length = 20 } :=
  fixedFromAscObj 20 ab

/-- `FromAscObj<ArrayBuffer<T>> for [T; 4]`. -/
def array4FromAscObj (ab : ArrayBuffer α) : Outcome { l : List α // l.length = 4 } :=
  fixedFromAscObj 4 ab

/-- `FromAscObj<ArrayBuffer<T>> for Vec<T>`. -/
def vecFromAscObj (ab : ArrayBuffer α) : List α := ab.content

/-- `ToAscObj<ArrayBuffer<u8>> for H160`. -/
def h160ToAscObj (a : H160) : ArrayBuffer UInt8 := arrayBufferToAscObj a.bytes

/-- `FromAscObj<ArrayBuffer<u8>> for H160`. -/
def h160FromAscObj (ab : ArrayBuffer UInt8) : Outcome H160 := do
  let a ← array20FromAscObj ab
  pure ⟨a.1, a.2⟩

/-- `ToAscObj<AscString> for str`. -/
def stringToAscObj (s : String) : AscString := ⟨encodeUtf16 s⟩

/-- `FromAscObj<AscString> for String`. -/
def stringFromAscObj (s : AscString) : Outcome String :=
  match decodeUtf16 s.content with
  | some cs => .ok ⟨cs⟩
  | none => .panic (.expect "asc string was not UTF-16")

/-- `ToAscObj<ArrayBuffer<u64>> for U256`. -/
def u256ToAscObj (u : U256) : ArrayBuffer UInt64 := arrayBufferToAscObj u.words

/-- `FromAscObj<ArrayBuffer<u64>> for U256`. -/
def u256FromAscObj (ab : ArrayBuffer UInt64) : Outcome U256 := do
  let a ← array4FromAscObj ab
  pure ⟨a.1, a.2⟩

theorem fixedFromAscObj_of_length {n : Nat} {ab : ArrayBuffer α} (h : ab.content.length = n) :
    fixedFromAscObj n ab = .ok ⟨ab.content, h⟩ :=
  dif_pos h

theorem length_of_fixedFromAscObj_eq_ok {n : Nat} {ab : ArrayBuffer α}
    {l : { l : List α // l.length = n }} (h : fixedFromAscObj n ab = .ok l) :
    ab.content.length = n := by
  unfold fixedFromAscObj at h
  split at h
  · assumption
  · cases h

theorem fixedFromAscObj_ne_diverge {n : Nat} {ab : ArrayBuffer α} :
    fixedFromAscObj n ab ≠ .diverge := by
  unfold fixedFromAscObj
  split <;> nofun

theorem h160FromAscObj_of_length {ab : ArrayBuffer UInt8} (h : ab.content.length = 20) :
    h160FromAscObj ab = .ok ⟨ab.content, h⟩ := by
  rw [h160FromAscObj, array20FromAscObj, fixedFromAscObj_of_length h]; rfl

theorem u256FromAscObj_of_length {ab : ArrayBuffer UInt64} (h : ab.content.length = 4) :
    u256FromAscObj ab = .ok ⟨ab.content, h⟩ := by
  rw [u256FromAscObj, array4FromAscObj, fixedFromAscObj_of_length h]; rfl

theorem stringFromAscObj_eq_ok_iff {s : AscString} :
    (∃ string, stringFromAscObj s = .ok string) ↔ (decodeUtf16 s.content).isSome := by
  unfold stringFromAscObj
  split <;> simp_all

theorem stringFromAscObj_ne_diverge {s : AscString} : stringFromAscObj s ≠ .diverge := by
  unfold stringFromAscObj
  split <;> nofun

@[simp] theorem h160FromAscObj_h160ToAscObj (a : H160) :
    h160FromAscObj (h160ToAscObj a) = .ok a :=
  h160FromAscObj_of_length a.length_eq

@[simp] theorem u256FromAscObj_u256ToAscObj (u : U256) :
    u256FromAscObj (u256ToAscObj u) = .ok u :=
  u256FromAscObj_of_length u.length_eq

@[simp] theorem stringFromAscObj_stringToAscObj (s : String) :
    stringFromAscObj (stringToAscObj s) = .ok s := by
  rw [stringFromAscObj, stringToAscObj]
  simp only [decodeUtf16_encodeUtf16]

end Leaves

/-- The leaf decoders accept exactly the encodings of values, each decoded to the value it
encodes: an `ArrayBuffer<u8>` decodes to an `H160` exactly when it is that address's buffer, an
`ArrayBuffer<u64>` to a `U256` exactly when it is that number's buffer, and an `AscString` to a
`String` exactly when it is that string's UTF-16. -/
theorem leaf_decoders_exact :
    (∀ (ab : ArrayBuffer UInt8) (a : H160), h160FromAscObj ab = .ok a ↔ h160ToAscObj a = ab) ∧
    (∀ (ab : ArrayBuffer UInt64) (u : U256), u256FromAscObj ab = .ok u ↔ u256ToAscObj u = ab) ∧
    (∀ (s : AscString) (str : String), stringFromAscObj s = .ok str ↔ stringToAscObj str = s) := by
  refine ⟨fun ab a => ⟨fun h => ?_, fun h => h ▸ h160FromAscObj_h160ToAscObj a⟩,
    fun ab u => ⟨fun h => ?_, fun h => h ▸ u256FromAscObj_u256ToAscObj u⟩,
    fun s str => ⟨fun h => ?_, fun h => h ▸ stringFromAscObj_stringToAscObj str⟩⟩
  · obtain ⟨l, hl, -⟩ := Outcome.bind_eq_ok.mp h
    rw [h160FromAscObj_of_length (length_of_fixedFromAscObj_eq_ok hl)] at h
    cases h
    rfl
  · obtain ⟨l, hl, -⟩ := Outcome.bind_eq_ok.mp h
    rw [u256FromAscObj_of_length (length_of_fixedFromAscObj_eq_ok hl)] at h
    cases h
    rfl
  · unfold stringFromAscObj at h
    split at h
    · rename_i cs hcs
      cases h
      exact congrArg AscString.mk (encodeUtf16_of_decodeUtf16 hcs)
    · cases h

/-! ## Arrays of pointers -/

section Arrays

variable {H : Type} [AscHeap H] {T : Type}

/-- The `heap.asc_new(x)` of each element, in order. -/
def ascNewAll (ascNewElem : T → H → Option (H × AscPtr)) : List T → H → Option (H × List AscPtr)
  | [], h => some (h, [])
  | x :: xs, h => do
    let r ← ascNewElem x h
    let rs ← ascNewAll ascNewElem xs r.1
    pure (rs.1, r.2 :: rs.2)

/-- Modelled from the spec: `Array::new`, which allocates the buffer of element pointers. -/
def arrayNew (content : List AscPtr) (h : H) : Option (H × AscArray) := do
  let r ← AscHeap.new h .arrayBufferPtr (arrayBufferToAscObj content)
  pure (r.1, ⟨r.2, UInt32.ofNat content.length⟩)

/-- `ToAscObj<Array<AscPtr<C>>> for [T]`. -/
def arrayToAscObj (ascNewElem : T → H → Option (H × AscPtr)) (xs : List T) (h : H) :
    Option (H × AscArray) := do
  let r ← ascNewAll ascNewElem xs h
  arrayNew r.2 r.1

/-- `FromAscObj<Array<AscPtr<C>>> for Vec<T>`: `get_buffer`, then the `heap.asc_get` of each
element pointer, in order. -/
def arrayFromAscObj (ascGetElem : AscPtr → Outcome T) (array : AscArray) (h : H) :
    Outcome (List T) := do
  let buffer ← readObj h .arrayBufferPtr array.buffer
  Outcome.traverse ascGetElem buffer.content

/-- Modelled from the spec: a pair `ToAscObj<C>` / `FromAscObj<C>` for the class `c`.
`toAscObj` builds the object for a value, allocating what it points to; it takes the heap by
shared reference and writes only through `asc_new`, so it only allocates. `fromAscObj` decodes
an object read from the heap. -/
structure ElemBridge (H : Type) [AscHeap H] (T : Type) (c : AscClass) where
  toAscObj : T → H → Option (H × c.Obj)
  fromAscObj : c.Obj → H → Outcome T
  extends_toAscObj : ∀ {x : T} {h h' : H} {o : c.Obj}, toAscObj x h = some (h', o) → Extends h h'

namespace ElemBridge

variable {c : AscClass}

/-- Modelled from the spec: `heap.asc_new(x)`, the object built and then allocated. -/
def ascNew (b : ElemBridge H T c) (x : T) (h : H) : Option (H × AscPtr) := do
  let r ← b.toAscObj x h
  AscHeap.new r.1 c r.2

/-- Modelled from the spec: `heap.asc_get(ptr)`, the object read and then decoded. -/
def ascGet (b : ElemBridge H T c) (h : H) (ptr : AscPtr) : Outcome T := do
  let o ← readObj h c ptr
  b.fromAscObj o h

/-- A bridge whose object points at nothing: `to_asc_obj` allocates nothing and
`from_asc_obj` reads nothing from the heap. -/
def ofLeaf (toObj : T → c.Obj) (fromObj : c.Obj → Outcome T) : ElemBridge H T c where
  toAscObj x h := some (h, toObj x)
  fromAscObj o _ := fromObj o
  extends_toAscObj hn := by cases hn; exact .refl _

end ElemBridge

/-- The `H160` bridges, `ToAscObj<ArrayBuffer<u8>>` and `FromAscObj<ArrayBuffer<u8>>`. -/
def h160Bridge : ElemBridge H H160 .arrayBufferU8 := .ofLeaf h160ToAscObj h160FromAscObj

/-- The `U256` bridges, `ToAscObj<ArrayBuffer<u64>>` and `FromAscObj<ArrayBuffer<u64>>`. -/
def u256Bridge : ElemBridge H U256 .arrayBufferU64 := .ofLeaf u256ToAscObj u256FromAscObj

/-- The string bridges, `ToAscObj<AscString>` and `FromAscObj<AscString>`. -/
def stringBridge : ElemBridge H String .ascString := .ofLeaf stringToAscObj stringFromAscObj

end Arrays

/-! ## Tokens -/

section Tokens

variable {H : Type} [AscHeap H]

/-- `Array::new` and the allocation of the array for a list of element pointers. -/
def ascNewPtrArray (ptrs : List AscPtr) (h : H) : Option (H × AscPtr) := do
  let r ← arrayNew ptrs h
  AscHeap.new r.1 .array r.2

/-- `AscEnum { discr, payload }` with the payload the `to_payload()` of a pointer just
allocated. -/
def withPayload (discr : TokenDiscr) (r : Option (H × AscPtr)) : Option (H × AscEnum) :=
  r.map fun r => (r.1, ⟨discr, r.2.toPayload⟩)

mutual

/-- `ToAscObj<AscEnum<TokenDiscr>> for ethabi::Token`. -/
def tokenToAscObj : Token → H → Option (H × AscEnum)
  | .address address, h =>
    withPayload .address (AscHeap.new h .arrayBufferU8 (h160ToAscObj address))
  | .fixedBytes bytes, h =>
    withPayload .fixedBytes (AscHeap.new h .arrayBufferU8 (arrayBufferToAscObj bytes))
  | .bytes bytes, h => withPayload .bytes (AscHeap.new h .arrayBufferU8 (arrayBufferToAscObj bytes))
  | .int uint, h => withPayload .int (AscHeap.new h .arrayBufferU64 (u256ToAscObj uint))
  | .uint uint, h => withPayload .uint (AscHeap.new h .arrayBufferU64 (u256ToAscObj uint))
  | .bool b, h => some (h, ⟨.bool, if b then 1 else 0⟩)
  | .string string, h => withPayload .string (AscHeap.new h .ascString (stringToAscObj string))
  | .fixedArray tokens, h => withPayload .fixedArray do
    let r ← ascNewTokens tokens h
    ascNewPtrArray r.2 r.1
  | .array tokens, h => withPayload .array do
    let r ← ascNewTokens tokens h
    ascNewPtrArray r.2 r.1

/-- The `heap.asc_new(x)` of each token of a list, in order. -/
def ascNewTokens : List Token → H → Option (H × List AscPtr)
  | [], h => some (h, [])
  | t :: ts, h => do
    let r ← tokenToAscObj t h
    let s ← AscHeap.new r.1 .ascEnum r.2
    let u ← ascNewTokens ts s.1
    pure (u.1, s.2 :: u.2)

end

/-- `heap.asc_new(token)`. -/
def ascNewToken (t : Token) (h : H) : Option (H × AscPtr) := do
  let r ← tokenToAscObj t h
  AscHeap.new r.1 .ascEnum r.2

/-- `FromAscObj<AscEnum<TokenDiscr>> for ethabi::Token`, with `ascGetElem` the `asc_get` of
the elements of an array. -/
def tokenFromAscObj (ascGetElem : AscPtr → Outcome Token) (ascEnum : AscEnum) (h : H) :
    Outcome Token :=
  let payload := ascEnum.payload
  match ascEnum.discr with
  | .bool => .ok (.bool (payload != 0))
  | .address => do
    let ab ← readObj h .arrayBufferU8 (.fromPayload payload)
    let a ← h160FromAscObj ab
    pure (.address a)
  | .fixedBytes => do
    let ab ← readObj h .arrayBufferU8 (.fromPayload payload)
    pure (.fixedBytes (vecFromAscObj ab))
  | .bytes => do
    let ab ← readObj h .arrayBufferU8 (.fromPayload payload)
    pure (.bytes (vecFromAscObj ab))
  | .int => do
    let ab ← readObj h .arrayBufferU64 (.fromPayload payload)
    let u ← u256FromAscObj ab
    pure (.int u)
  | .uint => do
    let ab ← readObj h .arrayBufferU64 (.fromPayload payload)
    let u ← u256FromAscObj ab
    pure (.int u)
  | .string => do
    let s ← readObj h .ascString (.fromPayload payload)
    let string ← stringFromAscObj s
    pure (.string string)
  | .fixedArray => do
    let array ← readObj h .array (.fromPayload payload)
    let tokens ← arrayFromAscObj ascGetElem array h
    pure (.fixedArray tokens)
  | .array => do
    let array ← readObj h .array (.fromPayload payload)
    let tokens ← arrayFromAscObj ascGetElem array h
    pure (.array tokens)

/-- `heap.asc_get(ptr)` of a token, the recursion through array elements at most `fuel`
deep. -/
def ascGetToken : Nat → H → AscPtr → Outcome Token
  | 0, _, _ => .diverge
  | fuel + 1, h, ptr => do
    let e ← readObj h .ascEnum ptr
    tokenFromAscObj (ascGetToken fuel h) e h

theorem ascGetToken_succ (fuel : Nat) (h : H) (ptr : AscPtr) :
    ascGetToken (fuel + 1) h ptr =
      (readObj h .ascEnum ptr >>= fun e => tokenFromAscObj (ascGetToken fuel h) e h) :=
  rfl

end Tokens

end GraphNode.Runtime
