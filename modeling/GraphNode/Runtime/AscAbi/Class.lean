import Mathlib.Data.List.Basic
/-!
# AssemblyScript classes and the guest heap

The objects the host reads from and writes to the guest heap, and the heap itself. The class
declarations (`ArrayBuffer<T>`, `AscString`, `Array<T>`, `AscEnum<D>`), `AscPtr` and the
`AscHeap` interface live outside `to_from.rs`; they are modelled here from the spec: values on
the heap are AssemblyScript-shaped, `AscPtr<T>` is a 32-bit offset, and `Enum<Discr>` carries
an 8-byte payload interpreted per discriminant.

The heap is read by class: `get h c p` interprets the memory at `p` as an object of class
`c`, or fails. `new` allocates an object, or fails when the memory cannot hold it.
`AllocLaws` states what the bridges rely on in a heap: `asc_new` allocates fresh objects and
`asc_get` reads back what was allocated.

Decoding follows pointers the guest wrote, so a decoder either returns, panics, or recurses
without end; `Outcome` names the three, the last as running out of the fuel that bounds the
depth of the recursion.
-/

namespace GraphNode.Runtime

/-- Modelled from the spec: `AscPtr<T>`, a 32-bit offset into guest memory. -/
structure AscPtr where
  offset : UInt32
  deriving DecidableEq, Repr

/-- Modelled from the spec: `AscPtr::to_payload`, the offset widened to `u64`. -/
def AscPtr.toPayload (p : AscPtr) : UInt64 := p.offset.toUInt64

/-- Modelled from the spec: `AscPtr::from_payload`, the payload cast `as u32`. -/
def AscPtr.fromPayload (payload : UInt64) : AscPtr := ⟨payload.toUInt32⟩

/-- Modelled from the spec: `TokenDiscr`. -/
inductive TokenDiscr
  | address
  | fixedBytes
  | bytes
  | int
  | uint
  | bool
  | string
  | fixedArray
  | array
  deriving DecidableEq, Repr

/-- Modelled from the spec: `ArrayBuffer<T>`, a contiguous run of `T`. -/
structure ArrayBuffer (α : Type) where
  content : List α
  deriving DecidableEq, Repr

/-- Modelled from the spec: `AscString`, UTF-16 code units. -/
structure AscString where
  content : List UInt16
  deriving DecidableEq, Repr

/-- Modelled from the spec: `Array<AscPtr<C>>`, a header pointing at a buffer of element
pointers. -/
structure AscArray where
  buffer : AscPtr
  length : UInt32
  deriving DecidableEq, Repr

/-- Modelled from the spec: `AscEnum<TokenDiscr>`, a discriminant and an 8-byte payload. -/
structure AscEnum where
  discr : TokenDiscr
  payload : UInt64
  deriving DecidableEq, Repr

/-- The classes the token bridges read and write. -/
inductive AscClass
  | arrayBufferU8
  | arrayBufferU64
  | arrayBufferPtr
  | ascString
  | array
  | ascEnum
  deriving DecidableEq, Repr

/-- The host type of an object of each class. -/
def AscClass.Obj : AscClass → Type
  | .arrayBufferU8 => ArrayBuffer UInt8
  | .arrayBufferU64 => ArrayBuffer UInt64
  | .arrayBufferPtr => ArrayBuffer AscPtr
  | .ascString => AscString
  | .array => AscArray
  | .ascEnum => AscEnum

/-- Modelled from the spec: the guest heap, read and allocated by class. -/
class AscHeap (H : Type) where
  get : H → (c : AscClass) → AscPtr → Option c.Obj
  new : H → (c : AscClass) → c.Obj → Option (H × AscPtr)

/-- What the bridges rely on in a heap: `asc_new` allocates an object where nothing allocated
was, and `asc_get` reads back what was allocated, at its class. `allocated` names the
objects allocated so far. -/
structure AllocLaws (H : Type) [AscHeap H] (allocated : H → AscClass → AscPtr → Prop) :
    Prop where
  get_new : ∀ {h h' : H} {c : AscClass} {o : c.Obj} {p : AscPtr},
    AscHeap.new h c o = some (h', p) → AscHeap.get h' c p = some o
  allocated_new : ∀ {h h' : H} {c : AscClass} {o : c.Obj} {p : AscPtr},
    AscHeap.new h c o = some (h', p) → allocated h' c p
  allocated_of_new : ∀ {h h' : H} {c : AscClass} {o : c.Obj} {p : AscPtr} {c' : AscClass}
    {q : AscPtr}, AscHeap.new h c o = some (h', p) → allocated h c' q → allocated h' c' q
  get_of_new : ∀ {h h' : H} {c : AscClass} {o : c.Obj} {p : AscPtr} {c' : AscClass}
    {q : AscPtr}, AscHeap.new h c o = some (h', p) → allocated h c' q →
      AscHeap.get h' c' q = AscHeap.get h c' q

/-- Why a decoder panicked. -/
inductive Panic
  /-- An `assert_eq!` failed with this message. -/
  | assertion (msg : String)
  /-- An `expect` on an error, with this message. -/
  | expect (msg : String)
  /-- The memory at the pointer does not hold an object of the class read. -/
  | read (ptr : AscPtr)
  deriving DecidableEq, Repr

/-- What a decoder does: return a value, panic, or recurse deeper than the fuel allows. -/
inductive Outcome (α : Type)
  | ok (a : α)
  | panic (p : Panic)
  | diverge
  deriving DecidableEq, Repr

namespace Outcome

variable {α β : Type}

def bind : Outcome α → (α → Outcome β) → Outcome β
  | .ok a, f => f a
  | .panic p, _ => .panic p
  | .diverge, _ => .diverge

instance : Monad Outcome where
  pure := .ok
  bind := bind

@[simp] theorem pure_eq (a : α) : (pure a : Outcome α) = .ok a := rfl
@[simp] theorem ok_bind (a : α) (f : α → Outcome β) : (Outcome.ok a >>= f) = f a := rfl
@[simp] theorem panic_bind (p : Panic) (f : α → Outcome β) : (Outcome.panic p >>= f) = .panic p :=
  rfl
@[simp] theorem diverge_bind (f : α → Outcome β) : (Outcome.diverge >>= f) = .diverge := rfl

/-- `.map(f).collect()` over a list: the elements in order, stopping at the first that does
not return. -/
def traverse (f : α → Outcome β) : List α → Outcome (List β)
  | [] => .ok []
  | a :: as => do
    let b ← f a
    let bs ← traverse f as
    pure (b :: bs)

@[simp] theorem traverse_nil (f : α → Outcome β) : traverse f [] = .ok [] := rfl

theorem traverse_cons (f : α → Outcome β) (a : α) (as : List α) :
    traverse f (a :: as) = (do let b ← f a; let bs ← traverse f as; pure (b :: bs)) := rfl

theorem traverse_of_forall₂ {f : α → Outcome β} {as : List α} {bs : List β}
    (h : List.Forall₂ (fun a b => f a = .ok b) as bs) : traverse f as = .ok bs := by
  induction h with
  | nil => rfl
  | cons hab _ ih => rw [traverse_cons, hab, ih]; rfl

theorem bind_eq_ok {o : Outcome α} {f : α → Outcome β} {b : β} :
    o >>= f = .ok b ↔ ∃ a, o = .ok a ∧ f a = .ok b := by
  cases o <;> simp only [ok_bind, panic_bind, diverge_bind, reduceCtorEq, false_and, exists_false,
    ok.injEq, exists_eq_left']

theorem mem_of_traverse_eq_ok {f : α → Outcome β} :
    ∀ {as : List α} {bs : List β}, traverse f as = .ok bs → ∀ a ∈ as, ∃ b, f a = .ok b
  | a :: as, _, h, a', ha' => by
    obtain ⟨b, hb, h⟩ := bind_eq_ok.mp h
    obtain ⟨bs, hbs, -⟩ := bind_eq_ok.mp h
    rcases List.mem_cons.mp ha' with rfl | ha'
    · exact ⟨b, hb⟩
    · exact mem_of_traverse_eq_ok hbs a' ha'

theorem exists_of_mem_traverse_eq_ok {f : α → Outcome β} :
    ∀ {as : List α} {bs : List β}, traverse f as = .ok bs → ∀ b ∈ bs, ∃ a ∈ as, f a = .ok b
  | [], _, h, _, hb => by
    cases h
    cases hb
  | a :: as, _, h, b', hb' => by
    obtain ⟨b, hb, h⟩ := bind_eq_ok.mp h
    obtain ⟨bs, hbs, h⟩ := bind_eq_ok.mp h
    cases h
    rcases List.mem_cons.mp hb' with rfl | hb'
    · exact ⟨a, List.mem_cons_self _ _, hb⟩
    · obtain ⟨a', ha', h'⟩ := exists_of_mem_traverse_eq_ok hbs b' hb'
      exact ⟨a', List.mem_cons_of_mem _ ha', h'⟩

/-! A decoder that returns or panics with some fuel does the same with more
(`Approx`); one that does not diverge is decided. -/

/-- `o` is `o'` computed with less fuel: it ran out, or it already agrees. -/
def Approx (o o' : Outcome α) : Prop := o = .diverge ∨ o = o'

theorem Approx.refl (o : Outcome α) : Approx o o := .inr rfl

theorem Approx.trans {o o' o'' : Outcome α} (h₁ : Approx o o') (h₂ : Approx o' o'') :
    Approx o o'' := by
  rcases h₁ with rfl | rfl
  · exact .inl rfl
  · exact h₂

theorem Approx.eq {o o' : Outcome α} (h : Approx o o') (ho : o ≠ .diverge) : o' = o :=
  (h.resolve_left ho).symm

theorem bind_approx {o o' : Outcome α} {f f' : α → Outcome β} (ho : Approx o o')
    (hf : ∀ a, Approx (f a) (f' a)) : Approx (o >>= f) (o' >>= f') := by
  rcases ho with rfl | rfl
  · exact .inl rfl
  · cases o with
    | ok a => exact hf a
    | panic p => exact .refl _
    | diverge => exact .refl _

theorem traverse_approx {f f' : α → Outcome β} (hf : ∀ a, Approx (f a) (f' a)) :
    ∀ as : List α, Approx (traverse f as) (traverse f' as)
  | [] => .refl _
  | a :: as => bind_approx (hf a) fun _ => bind_approx (traverse_approx hf as) fun _ => .refl _

theorem bind_ne_diverge {o : Outcome α} {f : α → Outcome β} (ho : o ≠ .diverge)
    (hf : ∀ a, o = .ok a → f a ≠ .diverge) : o >>= f ≠ .diverge := by
  cases o with
  | ok a => exact hf a rfl
  | panic p => nofun
  | diverge => exact absurd rfl ho

theorem traverse_ne_diverge {f : α → Outcome β} :
    ∀ {as : List α}, (∀ a ∈ as, f a ≠ .diverge) → traverse f as ≠ .diverge
  | [], _ => nofun
  | a :: _, h => bind_ne_diverge (h a (List.mem_cons_self _ _)) fun _ _ =>
    bind_ne_diverge (traverse_ne_diverge fun a' ha' => h a' (List.mem_cons_of_mem _ ha'))
      fun _ _ => nofun

theorem bind_ne_panic {o : Outcome α} {f : α → Outcome β} (ho : ∀ p, o ≠ .panic p)
    (hf : ∀ a, o = .ok a → ∀ p, f a ≠ .panic p) : ∀ p, o >>= f ≠ .panic p := by
  cases o with
  | ok a => exact hf a rfl
  | panic p => exact absurd rfl (ho p)
  | diverge => intro _; nofun

theorem traverse_ne_panic {f : α → Outcome β} :
    ∀ {as : List α}, (∀ a ∈ as, ∀ p, f a ≠ .panic p) → ∀ p, traverse f as ≠ .panic p
  | [], _ => nofun
  | a :: _, h => bind_ne_panic (h a (List.mem_cons_self _ _)) fun _ _ =>
    bind_ne_panic (traverse_ne_panic fun a' ha' => h a' (List.mem_cons_of_mem _ ha'))
      fun _ _ _ => nofun

end Outcome

section Heap

variable {H : Type} [AscHeap H]

/-- `heap.asc_get(ptr)` up to the class's own decoding: the object at `ptr`, or a panic. -/
def readObj (h : H) (c : AscClass) (ptr : AscPtr) : Outcome c.Obj :=
  match AscHeap.get h c ptr with
  | some o => .ok o
  | none => .panic (.read ptr)

/-- `h'` is `h` after some successful allocations. -/
inductive Extends : H → H → Prop
  | refl (h : H) : Extends h h
  | new {h h' h'' : H} {c : AscClass} {o : c.Obj} {p : AscPtr} :
      AscHeap.new h c o = some (h', p) → Extends h' h'' → Extends h h''

theorem readObj_eq_ok {h : H} {c : AscClass} {ptr : AscPtr} {o : c.Obj} :
    readObj h c ptr = .ok o ↔ AscHeap.get h c ptr = some o := by
  unfold readObj
  split <;> simp_all

theorem readObj_ne_diverge {h : H} {c : AscClass} {ptr : AscPtr} : readObj h c ptr ≠ .diverge := by
  unfold readObj
  split <;> nofun

variable {allocated : H → AscClass → AscPtr → Prop} (hl : AllocLaws H allocated)
include hl

theorem Extends.get_eq {h h' : H} (he : Extends h h') {c : AscClass} {p : AscPtr}
    (ha : allocated h c p) : AscHeap.get h' c p = AscHeap.get h c p := by
  induction he with
  | refl => rfl
  | new hn _ ih => rw [ih (hl.allocated_of_new hn ha), hl.get_of_new hn ha]

/-- An object allocated on the way to `h'` reads back at its class in every later heap. -/
theorem readObj_of_new {h h₁ h' : H} {c : AscClass} {o : c.Obj} {p : AscPtr}
    (hn : AscHeap.new h c o = some (h₁, p)) (he : Extends h₁ h') : readObj h' c p = .ok o := by
  rw [readObj_eq_ok, he.get_eq hl (hl.allocated_new hn), hl.get_new hn]

end Heap

theorem Extends.trans {H : Type} [AscHeap H] {h₁ h₂ h₃ : H} (h₁₂ : Extends h₁ h₂)
    (h₂₃ : Extends h₂ h₃) : Extends h₁ h₃ := by
  induction h₁₂ with
  | refl => exact h₂₃
  | new hn _ ih => exact .new hn (ih h₂₃)

theorem AscPtr.fromPayload_toPayload (p : AscPtr) : AscPtr.fromPayload p.toPayload = p := by
  obtain ⟨o⟩ := p
  exact congrArg AscPtr.mk
    (UInt32.toNat.inj (UInt32.toNat_ofNat_of_lt o.toNat_lt_size) : UInt32.ofNat o.toNat = o)

end GraphNode.Runtime
