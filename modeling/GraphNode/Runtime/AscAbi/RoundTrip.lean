import GraphNode.Runtime.AscAbi.ToFrom
import GraphNode.Runtime.AscAbi.ListHeap
/-!
# Tokens round-trip through the guest heap

On every heap that satisfies `AllocLaws`, decoding the `AscEnum` that
`ToAscObj<AscEnum<TokenDiscr>>` writes for a token gives the token back with every `Uint`
read as `Int` (`token_round_trip`), once the fuel covers the nesting depth. Encoding only
allocates (`extends_tokenToAscObj`), so every object it wrote still reads back when the
decoder follows the pointers.

The same holds of `ToAscObj<Array<AscPtr<C>>>` over any element bridge that round-trips on each
element (`array_round_trip`): the decoded list is the list written, element by element, in
every heap the allocations lead to.
-/

namespace GraphNode.Runtime

mutual

/-- The token decoding gives back: every `Uint` becomes an `Int`. -/
def Token.uintToInt : Token → Token
  | .uint u => .int u
  | .fixedArray ts => .fixedArray (Token.uintToIntList ts)
  | .array ts => .array (Token.uintToIntList ts)
  | t => t

def Token.uintToIntList : List Token → List Token
  | [] => []
  | t :: ts => t.uintToInt :: Token.uintToIntList ts

end

mutual

/-- Whether a `Uint` occurs at any depth. -/
def Token.hasUint : Token → Bool
  | .uint _ => true
  | .fixedArray ts | .array ts => Token.hasUintList ts
  | _ => false

def Token.hasUintList : List Token → Bool
  | [] => false
  | t :: ts => t.hasUint || Token.hasUintList ts

end

mutual

/-- The nesting depth of arrays. -/
def Token.depth : Token → Nat
  | .fixedArray ts | .array ts => Token.depthList ts + 1
  | _ => 0

def Token.depthList : List Token → Nat
  | [] => 0
  | t :: ts => max t.depth (Token.depthList ts)

end

mutual

theorem uintToInt_of_hasUint : ∀ t : Token, t.hasUint = false → t.uintToInt = t
  | .address _, _ | .fixedBytes _, _ | .bytes _, _ | .int _, _ | .bool _, _ | .string _, _ => rfl
  | .uint _, h => by cases h
  | .fixedArray ts, h | .array ts, h => by
    rw [Token.uintToInt, uintToIntList_of_hasUint ts h]

theorem uintToIntList_of_hasUint : ∀ ts : List Token, Token.hasUintList ts = false →
    Token.uintToIntList ts = ts
  | [], _ => rfl
  | t :: ts, h => by
    simp only [Token.hasUintList, Bool.or_eq_false_iff] at h
    rw [Token.uintToIntList, uintToInt_of_hasUint t h.1, uintToIntList_of_hasUint ts h.2]

end

theorem depth_le_depthList {t : Token} : ∀ {ts : List Token}, t ∈ ts → t.depth ≤ Token.depthList ts
  | _ :: _, .head _ => Nat.le_max_left _ _
  | _ :: _, .tail _ h => (depth_le_depthList h).trans (Nat.le_max_right _ _)

theorem bind_eq_some {α β : Type} {x : Option α} {f : α → Option β} {b : β} :
    (x >>= f) = some b ↔ ∃ a, x = some a ∧ f a = some b :=
  Option.bind_eq_some

theorem withPayload_eq_some {H : Type} {d : TokenDiscr} {r : Option (H × AscPtr)} {h' : H}
    {e : AscEnum} (hn : withPayload d r = some (h', e)) :
    ∃ p, r = some (h', p) ∧ e = ⟨d, p.toPayload⟩ := by
  obtain ⟨⟨h₁, p⟩, hr, he⟩ := Option.map_eq_some'.mp hn
  cases he
  exact ⟨p, hr, rfl⟩

section RoundTrip

variable {H : Type} [AscHeap H]

/-- What `Array::new` and the allocation of the array allocate. -/
theorem ascNewPtrArray_eq_some {ptrs : List AscPtr} {h h' : H} {p : AscPtr}
    (hn : ascNewPtrArray ptrs h = some (h', p)) :
    ∃ h₁ buffer, AscHeap.new h .arrayBufferPtr (arrayBufferToAscObj ptrs) = some (h₁, buffer) ∧
      AscHeap.new h₁ .array ⟨buffer, UInt32.ofNat ptrs.length⟩ = some (h', p) := by
  obtain ⟨⟨h₁, array⟩, ha, hn⟩ := bind_eq_some.mp hn
  obtain ⟨⟨h₂, buffer⟩, hb, hpure⟩ := bind_eq_some.mp ha
  cases hpure
  exact ⟨h₂, buffer, hb, hn⟩

/-- What the arms of the two array tokens allocate. -/
theorem tokenArray_eq_some {ts : List Token} {h h' : H} {p : AscPtr}
    (hn : (do let r ← ascNewTokens ts h; ascNewPtrArray r.2 r.1) = some (h', p)) :
    ∃ h₁ ptrs h₂ buffer, ascNewTokens ts h = some (h₁, ptrs) ∧
      AscHeap.new h₁ .arrayBufferPtr (arrayBufferToAscObj ptrs) = some (h₂, buffer) ∧
      AscHeap.new h₂ .array ⟨buffer, UInt32.ofNat ptrs.length⟩ = some (h', p) := by
  obtain ⟨⟨h₁, ptrs⟩, hts, hn⟩ := bind_eq_some.mp hn
  obtain ⟨h₂, buffer, hb, ha⟩ := ascNewPtrArray_eq_some hn
  exact ⟨h₁, ptrs, h₂, buffer, hts, hb, ha⟩

/-- What `heap.asc_new` of the tokens of a nonempty list allocates: the first token's objects,
its enum, then the rest. -/
theorem ascNewTokens_cons_eq_some {t : Token} {ts : List Token} {h h' : H} {ps : List AscPtr}
    (hn : ascNewTokens (t :: ts) h = some (h', ps)) :
    ∃ h₁ e h₂ p ps', tokenToAscObj t h = some (h₁, e) ∧ AscHeap.new h₁ .ascEnum e = some (h₂, p) ∧
      ascNewTokens ts h₂ = some (h', ps') ∧ ps = p :: ps' := by
  obtain ⟨⟨h₁, e⟩, ht, hn⟩ := bind_eq_some.mp hn
  obtain ⟨⟨h₂, p⟩, he, hn⟩ := bind_eq_some.mp hn
  obtain ⟨⟨_, ps'⟩, hts, hpure⟩ := bind_eq_some.mp hn
  cases hpure
  exact ⟨h₁, e, h₂, p, ps', ht, he, hts, rfl⟩

mutual

/-- Writing a token only allocates. -/
theorem extends_tokenToAscObj : ∀ (t : Token) {h h' : H} {e : AscEnum},
    tokenToAscObj t h = some (h', e) → Extends h h'
  | .address _, _, _, _, hn | .fixedBytes _, _, _, _, hn | .bytes _, _, _, _, hn
  | .int _, _, _, _, hn | .uint _, _, _, _, hn | .string _, _, _, _, hn => by
    obtain ⟨_, hp, -⟩ := withPayload_eq_some hn
    exact .new hp (.refl _)
  | .bool _, _, _, _, hn => by cases hn; exact .refl _
  | .fixedArray ts, _, _, _, hn | .array ts, _, _, _, hn => by
    obtain ⟨_, hp, -⟩ := withPayload_eq_some hn
    obtain ⟨_, _, _, _, hts, hb, ha⟩ := tokenArray_eq_some hp
    exact (extends_ascNewTokens ts hts).trans (.new hb (.new ha (.refl _)))

theorem extends_ascNewTokens : ∀ (ts : List Token) {h h' : H} {ps : List AscPtr},
    ascNewTokens ts h = some (h', ps) → Extends h h'
  | [], _, _, _, hn => by cases hn; exact .refl _
  | t :: ts, _, _, _, hn => by
    obtain ⟨_, _, _, _, _, ht, he, hts, rfl⟩ := ascNewTokens_cons_eq_some hn
    exact (extends_tokenToAscObj t ht).trans (.new he (extends_ascNewTokens ts hts))

end

variable {allocated : H → AscClass → AscPtr → Prop} (hl : AllocLaws H allocated)
include hl

mutual

/-- The object written for a token decodes to the token, `Uint`s read as `Int`, in every heap
the allocations lead to. -/
theorem tokenFromAscObj_of_tokenToAscObj : ∀ (t : Token) {h h₁ h' : H} {e : AscEnum}
    {fuel : Nat}, tokenToAscObj t h = some (h₁, e) → Extends h₁ h' → t.depth ≤ fuel →
      tokenFromAscObj (ascGetToken fuel h') e h' = .ok t.uintToInt
  | .address _, _, _, _, _, _, hn, he, _ | .fixedBytes _, _, _, _, _, _, hn, he, _
  | .bytes _, _, _, _, _, _, hn, he, _ | .int _, _, _, _, _, _, hn, he, _
  | .uint _, _, _, _, _, _, hn, he, _ | .string _, _, _, _, _, _, hn, he, _ => by
    obtain ⟨_, hp, rfl⟩ := withPayload_eq_some hn
    simp only [tokenFromAscObj, AscPtr.fromPayload_toPayload, readObj_of_new hl hp he,
      Outcome.ok_bind, h160FromAscObj_h160ToAscObj, u256FromAscObj_u256ToAscObj,
      stringFromAscObj_stringToAscObj, vecFromAscObj, arrayBufferToAscObj, Outcome.pure_eq,
      Token.uintToInt]
  | .bool b, _, _, _, _, _, hn, _, _ => by
    cases hn
    cases b <;> rfl
  | .fixedArray ts, _, _, h', _, fuel, hn, he, hd
  | .array ts, _, _, h', _, fuel, hn, he, hd => by
    obtain ⟨_, hp, rfl⟩ := withPayload_eq_some hn
    obtain ⟨_, _, _, _, hts, hb, ha⟩ := tokenArray_eq_some hp
    have helems : Outcome.traverse (ascGetToken fuel h') _ = .ok (Token.uintToIntList ts) :=
      traverse_of_ascNewTokens ts hts (.new hb (.new ha he)) fun t ht =>
        Nat.lt_of_le_of_lt (depth_le_depthList ht) (by simp only [Token.depth] at hd; omega)
    simp only [tokenFromAscObj, arrayFromAscObj, AscPtr.fromPayload_toPayload,
      readObj_of_new hl ha he, readObj_of_new hl hb (.new ha he), Outcome.ok_bind,
      arrayBufferToAscObj, helems, Outcome.pure_eq, Token.uintToInt]

/-- The pointers written for a list of tokens decode, in order, to the tokens. -/
theorem traverse_of_ascNewTokens : ∀ (ts : List Token) {h h₁ h' : H} {ps : List AscPtr}
    {fuel : Nat}, ascNewTokens ts h = some (h₁, ps) → Extends h₁ h' →
      (∀ t ∈ ts, t.depth < fuel) →
      Outcome.traverse (ascGetToken fuel h') ps = .ok (Token.uintToIntList ts)
  | [], _, _, _, _, _, hn, _, _ => by cases hn; rfl
  | t :: ts, _, _, _, _, fuel, hn, he, hd => by
    obtain ⟨_, _, _, _, _, ht, hp, hts, rfl⟩ := ascNewTokens_cons_eq_some hn
    obtain ⟨fuel, rfl⟩ : ∃ f, fuel = f + 1 :=
      ⟨fuel - 1, by have := hd t (List.mem_cons_self _ _); omega⟩
    have hrest := extends_ascNewTokens ts hts
    have hhead := tokenFromAscObj_of_tokenToAscObj t ht (.new hp (hrest.trans he))
      (Nat.le_of_lt_succ (hd t (List.mem_cons_self _ _)))
    have htail := traverse_of_ascNewTokens ts hts he fun t' ht' =>
      hd t' (List.mem_cons_of_mem _ ht')
    simp only [Outcome.traverse_cons, ascGetToken_succ, readObj_of_new hl hp (hrest.trans he),
      Outcome.ok_bind, hhead, htail, Outcome.pure_eq, Token.uintToIntList]

end

/-- Decoding the `AscEnum` that `ToAscObj<AscEnum<TokenDiscr>>` writes for a token, in the heap
it leaves, gives the token with every `Uint` read as `Int`; a token with no `Uint` comes back
exactly. -/
theorem token_round_trip (t : Token) {h h' : H} {e : AscEnum}
    (hn : tokenToAscObj t h = some (h', e)) (fuel : Nat) (hf : t.depth ≤ fuel) :
    tokenFromAscObj (ascGetToken fuel h') e h' = .ok t.uintToInt ∧
      (t.hasUint = false → tokenFromAscObj (ascGetToken fuel h') e h' = .ok t) := by
  have hdec := tokenFromAscObj_of_tokenToAscObj hl t hn (.refl _) hf
  exact ⟨hdec, fun hu => hdec.trans (congrArg _ (uintToInt_of_hasUint t hu))⟩

/-- `heap.asc_get(heap.asc_new(token))`: the pointer-level round trip. -/
theorem ascGetToken_ascNewToken (t : Token) {h h' : H} {p : AscPtr}
    (hn : ascNewToken t h = some (h', p)) (fuel : Nat) (hf : t.depth < fuel) :
    ascGetToken fuel h' p = .ok t.uintToInt := by
  obtain ⟨⟨h₁, e⟩, ht, hp⟩ := bind_eq_some.mp hn
  obtain ⟨fuel, rfl⟩ : ∃ f, fuel = f + 1 := ⟨fuel - 1, by omega⟩
  rw [ascGetToken_succ, readObj_of_new hl hp (.refl _), Outcome.ok_bind,
    tokenFromAscObj_of_tokenToAscObj hl t ht (.new hp (.refl _)) (Nat.le_of_lt_succ hf)]

end RoundTrip

/-- A fixed array of an unsigned integer, a string with a character outside the basic
multilingual plane, and a boolean. -/
def sampleToken : Token :=
  .fixedArray [.uint ⟨[7, 0, 0, 0], rfl⟩, .string "a𝄞", .bool true]

theorem token_round_trip_sampleToken :
    ∃ h' e, tokenToAscObj sampleToken (⟨[]⟩ : ListHeap) = some (h', e) ∧ sampleToken.depth ≤ 1 ∧
      (tokenFromAscObj (ascGetToken 1 h') e h' = .ok sampleToken.uintToInt ∧
        (sampleToken.hasUint = false →
          tokenFromAscObj (ascGetToken 1 h') e h' = .ok sampleToken)) :=
  ⟨_, _, rfl, by decide,
    @token_round_trip _ _ _ listHeap_allocLaws sampleToken ⟨[]⟩ _ _ rfl 1 (by decide)⟩

/-! ## Arrays of pointers -/

/-- What `heap.asc_new` of the elements of a nonempty list allocates: the first element, then
the rest. -/
theorem ascNewAll_cons_eq_some {H T : Type} {f : T → H → Option (H × AscPtr)} {x : T}
    {xs : List T} {h h' : H} {ps : List AscPtr} (hn : ascNewAll f (x :: xs) h = some (h', ps)) :
    ∃ h₁ p ps', f x h = some (h₁, p) ∧ ascNewAll f xs h₁ = some (h', ps') ∧ ps = p :: ps' := by
  obtain ⟨⟨h₁, p⟩, hp, hn⟩ := bind_eq_some.mp hn
  obtain ⟨⟨_, ps'⟩, hps, hpure⟩ := bind_eq_some.mp hn
  cases hpure
  exact ⟨h₁, p, ps', hp, hps, rfl⟩

section Arrays

variable {H T : Type} [AscHeap H] {c : AscClass}

/-- The bridge round-trips on `x`: the object it builds for `x` decodes to `x` in every heap
the allocations lead to. -/
def ElemBridge.RoundTrips (b : ElemBridge H T c) (x : T) : Prop :=
  ∀ {h h₁ h' : H} {o : c.Obj}, b.toAscObj x h = some (h₁, o) → Extends h₁ h' →
    b.fromAscObj o h' = .ok x

theorem ElemBridge.ofLeaf_roundTrips {toObj : T → c.Obj} {fromObj : c.Obj → Outcome T} {x : T}
    (h : fromObj (toObj x) = .ok x) : (ElemBridge.ofLeaf (H := H) toObj fromObj).RoundTrips x := by
  intro _ _ _ _ hn _
  cases hn
  exact h

theorem ElemBridge.extends_ascNew {b : ElemBridge H T c} {x : T} {h h' : H} {p : AscPtr}
    (hn : b.ascNew x h = some (h', p)) : Extends h h' := by
  obtain ⟨⟨h₁, o⟩, ho, hp⟩ := bind_eq_some.mp hn
  exact (b.extends_toAscObj ho).trans (.new hp (.refl _))

theorem extends_ascNewAll {b : ElemBridge H T c} :
    ∀ {xs : List T} {h h' : H} {ps : List AscPtr}, ascNewAll b.ascNew xs h = some (h', ps) →
      Extends h h'
  | [], _, _, _, hn => by cases hn; exact .refl _
  | _ :: _, _, _, _, hn => by
    obtain ⟨_, _, _, hp, hps, rfl⟩ := ascNewAll_cons_eq_some hn
    exact (ElemBridge.extends_ascNew hp).trans (extends_ascNewAll hps)

variable {allocated : H → AscClass → AscPtr → Prop} (hl : AllocLaws H allocated)
include hl

/-- `heap.asc_get(heap.asc_new(x))` is `x` in every later heap, when the bridge round-trips on
`x`. -/
theorem ascGet_ascNew {b : ElemBridge H T c} {x : T} (hx : b.RoundTrips x) {h h₁ h' : H}
    {p : AscPtr} (hn : b.ascNew x h = some (h₁, p)) (he : Extends h₁ h') :
    b.ascGet h' p = .ok x := by
  obtain ⟨⟨h₀, o⟩, ho, hp⟩ := bind_eq_some.mp hn
  rw [ElemBridge.ascGet, readObj_of_new hl hp he, Outcome.ok_bind]
  exact hx ho (.new hp he)

/-- The element pointers written for a list decode, position by position, to its elements in
every later heap: allocating the later elements does not disturb the earlier ones. -/
theorem forall₂_ascNewAll {b : ElemBridge H T c} :
    ∀ {xs : List T}, (∀ x ∈ xs, b.RoundTrips x) → ∀ {h h₁ h' : H} {ps : List AscPtr},
      ascNewAll b.ascNew xs h = some (h₁, ps) → Extends h₁ h' →
      List.Forall₂ (fun p x => b.ascGet h' p = .ok x) ps xs
  | [], _, _, _, _, _, hn, _ => by cases hn; exact .nil
  | x :: _, hxs, _, _, _, _, hn, he => by
    obtain ⟨_, _, _, hp, hps, rfl⟩ := ascNewAll_cons_eq_some hn
    exact .cons (ascGet_ascNew hl (hxs x (List.mem_cons_self _ _)) hp
        ((extends_ascNewAll hps).trans he))
      (forall₂_ascNewAll (fun x' hx' => hxs x' (List.mem_cons_of_mem _ hx')) hps he)

/-- Decoding the `Array<AscPtr<C>>` that `ToAscObj<Array<AscPtr<C>>>` writes for `xs`, in any
heap the allocations lead to, gives `xs` back: its buffer holds one pointer per element, in
order, each decoding to its element. -/
theorem array_round_trip (b : ElemBridge H T c) (xs : List T) (hxs : ∀ x ∈ xs, b.RoundTrips x)
    {h h' h'' : H} {array : AscArray} (hn : arrayToAscObj b.ascNew xs h = some (h', array))
    (he : Extends h' h'') :
    arrayFromAscObj (b.ascGet h'') array h'' = .ok xs ∧
      ∃ ptrs : List AscPtr, readObj h'' .arrayBufferPtr array.buffer = .ok ⟨ptrs⟩ ∧
        List.Forall₂ (fun p x => b.ascGet h'' p = .ok x) ptrs xs := by
  obtain ⟨⟨h₁, ptrs⟩, hps, hn⟩ := bind_eq_some.mp hn
  obtain ⟨⟨_, buffer⟩, hb, hpure⟩ := bind_eq_some.mp hn
  cases hpure
  have helems := forall₂_ascNewAll hl hxs hps (.new hb he)
  have hbuf : readObj h'' .arrayBufferPtr buffer = .ok ⟨ptrs⟩ := readObj_of_new hl hb he
  refine ⟨?_, ptrs, hbuf, helems⟩
  rw [arrayFromAscObj, hbuf, Outcome.ok_bind]
  exact Outcome.traverse_of_forall₂ helems

end Arrays

theorem array_round_trip_stringBridge :
    (∀ x ∈ ["a", "𝄞"], stringBridge.RoundTrips (H := ListHeap) x) ∧
    ∃ h' array, arrayToAscObj stringBridge.ascNew ["a", "𝄞"] (⟨[]⟩ : ListHeap) = some (h', array) ∧
      (arrayFromAscObj (stringBridge.ascGet h') array h' = .ok ["a", "𝄞"] ∧
        ∃ ptrs : List AscPtr, readObj h' .arrayBufferPtr array.buffer = .ok ⟨ptrs⟩ ∧
          List.Forall₂ (fun p x => stringBridge.ascGet h' p = .ok x) ptrs ["a", "𝄞"]) :=
  have hrt : ∀ x ∈ ["a", "𝄞"], stringBridge.RoundTrips (H := ListHeap) x :=
    fun x _ => ElemBridge.ofLeaf_roundTrips (stringFromAscObj_stringToAscObj x)
  ⟨hrt, _, _, rfl,
    @array_round_trip _ _ _ _ _ listHeap_allocLaws stringBridge _ hrt ⟨[]⟩ _ _ _ rfl (.refl _)⟩

end GraphNode.Runtime
