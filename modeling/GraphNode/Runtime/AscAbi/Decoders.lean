import GraphNode.Runtime.AscAbi.RoundTrip
/-!
# What the decoders do with what the guest wrote

The guest writes the heap, so the decoders of `to_from.rs` meet every layout. None of them has
an error path: a buffer of the wrong length fails an `assert_eq!`, a string that is not UTF-16
fails an `expect`, and memory that does not hold an object of the class read fails the read.

`TokenWf` says which contents the token decoder accepts. When the pointer graph the decoder
walks from a pointer has no infinite path (`TokenFinite`), the decoder terminates
(`ascGetToken_terminates`), returning a token exactly on the contents `TokenWf` describes and
panicking on every other (`tokenDecoder_outcome`). Nothing bounds the walk, so a heap whose
pointers form a cycle makes it recurse without end (`cyclic_token_diverges`).

What the decoder returns is a fixed point of the bridge (`decoded_token_round_trips`): a token
without `Uint`, which allocating and decoding again gives back exactly.
-/

namespace GraphNode.Runtime

open Outcome

section Walk

variable {H : Type} [AscHeap H]

/-- The element pointers of the array an `AscArray` header points at, if its buffer reads. -/
def arrayElems (h : H) (a : AscArray) : List AscPtr :=
  match AscHeap.get h .arrayBufferPtr a.buffer with
  | some b => b.content
  | none => []

/-- The pointers `FromAscObj<AscEnum<TokenDiscr>>` follows from an enum: the elements of an
array token. -/
def enumChildren (h : H) (e : AscEnum) : List AscPtr :=
  match e.discr with
  | .fixedArray | .array =>
    match AscHeap.get h .array (.fromPayload e.payload) with
    | some a => arrayElems h a
    | none => []
  | _ => []

/-- The pointers the token decoder follows from the enum at `p`. -/
def children (h : H) (p : AscPtr) : List AscPtr :=
  match AscHeap.get h .ascEnum p with
  | some e => enumChildren h e
  | none => []

/-- The pointer graph the token decoder walks from `p` has no infinite path: on a heap of
finitely many objects, the graph reachable from `p` is finite and acyclic. -/
abbrev TokenFinite (h : H) (p : AscPtr) : Prop := Acc (fun q p => q ∈ children h p) p

theorem tokenFinite_of_children_nil {h : H} {p : AscPtr} (hc : children h p = []) :
    TokenFinite h p :=
  .intro p fun q hq => by rw [hc] at hq; cases hq

theorem enumChildren_of_get {h : H} {e : AscEnum} {a : AscArray} {b : ArrayBuffer AscPtr}
    (hd : e.discr = .fixedArray ∨ e.discr = .array)
    (ha : AscHeap.get h .array (.fromPayload e.payload) = some a)
    (hb : AscHeap.get h .arrayBufferPtr a.buffer = some b) : enumChildren h e = b.content := by
  obtain ⟨d, payload⟩ := e
  rcases hd with rfl | rfl <;> simp only [enumChildren, arrayElems, ha, hb]

/-- The contents the token decoder accepts at `p`: the enum, and every object the decoder reads
for it, has its class; an address buffer holds 20 bytes, an integer buffer four words, a string
is UTF-16, and every element of an array is itself accepted. -/
inductive TokenWf (h : H) : AscPtr → Prop
  | bool {p : AscPtr} {e : AscEnum} : AscHeap.get h .ascEnum p = some e → e.discr = .bool →
      TokenWf h p
  | address {p : AscPtr} {e : AscEnum} {ab : ArrayBuffer UInt8} :
      AscHeap.get h .ascEnum p = some e → e.discr = .address →
      AscHeap.get h .arrayBufferU8 (.fromPayload e.payload) = some ab →
      ab.content.length = 20 → TokenWf h p
  | bytes {p : AscPtr} {e : AscEnum} {ab : ArrayBuffer UInt8} :
      AscHeap.get h .ascEnum p = some e → (e.discr = .fixedBytes ∨ e.discr = .bytes) →
      AscHeap.get h .arrayBufferU8 (.fromPayload e.payload) = some ab → TokenWf h p
  | int {p : AscPtr} {e : AscEnum} {ab : ArrayBuffer UInt64} :
      AscHeap.get h .ascEnum p = some e → (e.discr = .int ∨ e.discr = .uint) →
      AscHeap.get h .arrayBufferU64 (.fromPayload e.payload) = some ab →
      ab.content.length = 4 → TokenWf h p
  | string {p : AscPtr} {e : AscEnum} {s : AscString} :
      AscHeap.get h .ascEnum p = some e → e.discr = .string →
      AscHeap.get h .ascString (.fromPayload e.payload) = some s →
      (decodeUtf16 s.content).isSome → TokenWf h p
  | array {p : AscPtr} {e : AscEnum} {a : AscArray} {b : ArrayBuffer AscPtr} :
      AscHeap.get h .ascEnum p = some e → (e.discr = .fixedArray ∨ e.discr = .array) →
      AscHeap.get h .array (.fromPayload e.payload) = some a →
      AscHeap.get h .arrayBufferPtr a.buffer = some b →
      (∀ q ∈ b.content, TokenWf h q) → TokenWf h p

end Walk

/-! ## Fuel -/

section Fuel

variable {H : Type} [AscHeap H] {h : H}

/-- Decoding an enum with a better decoder of its elements gives a better result. -/
theorem tokenFromAscObj_approx {g g' : AscPtr → Outcome Token} (hg : ∀ q, Approx (g q) (g' q))
    (e : AscEnum) : Approx (tokenFromAscObj g e h) (tokenFromAscObj g' e h) := by
  obtain ⟨d, payload⟩ := e
  cases d
  case fixedArray | array =>
    exact bind_approx (.refl _) fun a =>
      bind_approx (bind_approx (.refl _) fun b => traverse_approx hg b.content) fun _ => .refl _
  all_goals exact .refl _

theorem ascGetToken_approx_succ : ∀ (n : Nat) (p : AscPtr),
    Approx (ascGetToken n h p) (ascGetToken (n + 1) h p)
  | 0, _ => .inl rfl
  | n + 1, _ => bind_approx (.refl _) (tokenFromAscObj_approx (ascGetToken_approx_succ n))

/-- More fuel never changes a result that did not run out. -/
theorem ascGetToken_eq_of_le {n m : Nat} {p : AscPtr} (hn : ascGetToken n h p ≠ .diverge)
    (hnm : n ≤ m) : ascGetToken m h p = ascGetToken n h p := by
  have happrox : Approx (ascGetToken n h p) (ascGetToken m h p) := by
    induction hnm with
    | refl => exact .refl _
    | step _ ih => exact ih.trans (ascGetToken_approx_succ _ p)
  exact happrox.eq hn

/-- One fuel serves finitely many pointers, each of which has one. -/
theorem exists_fuel_forall {P : Nat → AscPtr → Prop} (hmono : ∀ {n m q}, n ≤ m → P n q → P m q) :
    ∀ {ps : List AscPtr}, (∀ q ∈ ps, ∃ n, P n q) → ∃ N, ∀ q ∈ ps, P N q
  | [], _ => ⟨0, nofun⟩
  | q :: qs, h => by
    obtain ⟨n, hn⟩ := h q (List.mem_cons_self _ _)
    have htail : ∀ q' ∈ qs, ∃ n, P n q' := fun q' hq' => h q' (List.mem_cons_of_mem _ hq')
    obtain ⟨N, hN⟩ := @exists_fuel_forall P hmono qs htail
    refine ⟨max n N, fun q' hq' => ?_⟩
    rcases List.mem_cons.mp hq' with rfl | hq'
    · exact hmono (Nat.le_max_left _ _) hn
    · exact hmono (Nat.le_max_right _ _) (hN q' hq')

/-- Decoding an enum runs out of fuel only where decoding one of its elements does. -/
theorem tokenFromAscObj_ne_diverge {g : AscPtr → Outcome Token} {e : AscEnum}
    (hg : ∀ q ∈ enumChildren h e, g q ≠ .diverge) : tokenFromAscObj g e h ≠ .diverge := by
  obtain ⟨d, payload⟩ := e
  cases d
  case bool => nofun
  case address =>
    exact bind_ne_diverge readObj_ne_diverge fun _ _ =>
      bind_ne_diverge (bind_ne_diverge fixedFromAscObj_ne_diverge fun _ _ => nofun) fun _ _ => nofun
  case int | uint =>
    exact bind_ne_diverge readObj_ne_diverge fun _ _ =>
      bind_ne_diverge (bind_ne_diverge fixedFromAscObj_ne_diverge fun _ _ => nofun) fun _ _ => nofun
  case fixedBytes | bytes => exact bind_ne_diverge readObj_ne_diverge fun _ _ => nofun
  case string =>
    exact bind_ne_diverge readObj_ne_diverge fun _ _ =>
      bind_ne_diverge stringFromAscObj_ne_diverge fun _ _ => nofun
  case fixedArray | array =>
    refine bind_ne_diverge readObj_ne_diverge fun a ha =>
      bind_ne_diverge (bind_ne_diverge readObj_ne_diverge fun b hb =>
        traverse_ne_diverge fun q hq => hg q ?_) fun _ _ => nofun
    rw [enumChildren_of_get (by simp) (readObj_eq_ok.mp ha) (readObj_eq_ok.mp hb)]
    exact hq

/-- Where the walk from `p` is finite, some fuel decodes `p` without running out. -/
theorem exists_fuel_ne_diverge {p : AscPtr} (hp : TokenFinite h p) :
    ∃ fuel, ascGetToken fuel h p ≠ .diverge := by
  induction hp with
  | intro p _ ih =>
    obtain ⟨N, hN⟩ := exists_fuel_forall
      (fun hnm hq => by rw [ascGetToken_eq_of_le hq hnm]; exact hq) ih
    refine ⟨N + 1, ?_⟩
    rw [ascGetToken_succ]
    refine bind_ne_diverge readObj_ne_diverge fun e he => tokenFromAscObj_ne_diverge fun q hq => ?_
    exact hN q (by rw [children, readObj_eq_ok.mp he]; exact hq)

/-- Where the walk from `p` is finite, decoding the token at `p` terminates: some fuel decodes
it without running out, and more fuel gives the same result. -/
theorem ascGetToken_terminates {p : AscPtr} (hp : TokenFinite h p) :
    ∃ fuel, ascGetToken fuel h p ≠ .diverge ∧
      ∀ n, fuel ≤ n → ascGetToken n h p = ascGetToken fuel h p := by
  obtain ⟨fuel, hf⟩ := exists_fuel_ne_diverge hp
  exact ⟨fuel, hf, fun _ hn => ascGetToken_eq_of_le hf hn⟩

end Fuel

/-! ## Accepted contents -/

section Accepted

variable {H : Type} [AscHeap H] {h : H}

/-- An enum the decoder returns a token for is accepted, given that the elements it returned
tokens for are. -/
theorem tokenWf_of_tokenFromAscObj {g : AscPtr → Outcome Token} {p : AscPtr} {e : AscEnum}
    {t : Token} (hget : AscHeap.get h .ascEnum p = some e)
    (hg : ∀ q t, g q = .ok t → TokenWf h q) (ht : tokenFromAscObj g e h = .ok t) :
    TokenWf h p := by
  obtain ⟨d, payload⟩ := e
  cases d <;> simp only [tokenFromAscObj, bind_eq_ok, readObj_eq_ok] at ht
  case bool => exact .bool hget rfl
  case address =>
    obtain ⟨ab, hab, a, ha, -⟩ := ht
    obtain ⟨l, hl, -⟩ := bind_eq_ok.mp ha
    exact .address hget rfl hab (length_of_fixedFromAscObj_eq_ok hl)
  case fixedBytes | bytes =>
    obtain ⟨ab, hab, -⟩ := ht
    exact .bytes hget (by simp) hab
  case int | uint =>
    obtain ⟨ab, hab, u, hu, -⟩ := ht
    obtain ⟨l, hl, -⟩ := bind_eq_ok.mp hu
    exact .int hget (by simp) hab (length_of_fixedFromAscObj_eq_ok hl)
  case string =>
    obtain ⟨s, hs, string, hstring, -⟩ := ht
    exact .string hget rfl hs (stringFromAscObj_eq_ok_iff.mp ⟨string, hstring⟩)
  case fixedArray | array =>
    obtain ⟨a, ha, ts, hts, -⟩ := ht
    obtain ⟨b, hb, hts⟩ := bind_eq_ok.mp hts
    refine .array hget (by simp) ha (readObj_eq_ok.mp hb) fun q hq => ?_
    obtain ⟨t, hq⟩ := mem_of_traverse_eq_ok hts q hq
    exact hg q t hq

/-- Contents the decoder returns a token for, with any fuel, are accepted. -/
theorem tokenWf_of_ascGetToken_eq_ok : ∀ {n : Nat} {p : AscPtr} {t : Token},
    ascGetToken n h p = .ok t → TokenWf h p
  | n + 1, _, _, ht => by
    rw [ascGetToken_succ] at ht
    obtain ⟨e, he, ht⟩ := bind_eq_ok.mp ht
    exact tokenWf_of_tokenFromAscObj (readObj_eq_ok.mp he)
      (fun _ _ hq => tokenWf_of_ascGetToken_eq_ok hq) ht

/-- The decoder does not panic at `p` when decoding the enum there does not, whatever the
fuel. -/
theorem ascGetToken_ne_panic_of_get {p : AscPtr} {e : AscEnum}
    (hget : AscHeap.get h .ascEnum p = some e)
    (he : ∀ n pa, tokenFromAscObj (ascGetToken n h) e h ≠ .panic pa) :
    ∀ n pa, ascGetToken n h p ≠ .panic pa
  | 0, _ => nofun
  | n + 1, pa => by rw [ascGetToken_succ, readObj_eq_ok.mpr hget, ok_bind]; exact he n pa

/-- Accepted contents never make the decoder panic, whatever the fuel. -/
theorem ascGetToken_ne_panic {p : AscPtr} (hp : TokenWf h p) :
    ∀ n pa, ascGetToken n h p ≠ .panic pa := by
  induction hp with
  | bool hget hd =>
    refine ascGetToken_ne_panic_of_get hget fun _ _ => ?_
    rw [tokenFromAscObj, hd]
    nofun
  | address hget hd hab hlen =>
    refine ascGetToken_ne_panic_of_get hget fun _ _ => ?_
    simp only [tokenFromAscObj, hd, readObj_eq_ok.mpr hab, ok_bind, h160FromAscObj_of_length hlen,
      pure_eq]
    nofun
  | bytes hget hd hab =>
    refine ascGetToken_ne_panic_of_get hget fun _ _ => ?_
    rcases hd with hd | hd <;>
      simp only [tokenFromAscObj, hd, readObj_eq_ok.mpr hab, ok_bind, pure_eq] <;> nofun
  | int hget hd hab hlen =>
    refine ascGetToken_ne_panic_of_get hget fun _ _ => ?_
    rcases hd with hd | hd <;> simp only [tokenFromAscObj, hd, readObj_eq_ok.mpr hab, ok_bind,
      u256FromAscObj_of_length hlen, pure_eq] <;> nofun
  | string hget hd hs hutf =>
    refine ascGetToken_ne_panic_of_get hget fun _ _ => ?_
    obtain ⟨string, hstring⟩ := stringFromAscObj_eq_ok_iff.mpr hutf
    simp only [tokenFromAscObj, hd, readObj_eq_ok.mpr hs, ok_bind, hstring, pure_eq]
    nofun
  | @array _ _ a _ hget hd ha hb _ ih =>
    refine ascGetToken_ne_panic_of_get hget fun n pa => ?_
    have helems : ∀ pa, arrayFromAscObj (ascGetToken n h) a h ≠ .panic pa := by
      rw [arrayFromAscObj, readObj_eq_ok.mpr hb, ok_bind]
      exact traverse_ne_panic fun q hq => ih q hq n
    rcases hd with hd | hd <;> simp only [tokenFromAscObj, hd, readObj_eq_ok.mpr ha, ok_bind] <;>
      refine bind_ne_panic helems (fun _ _ _ => ?_) pa <;> nofun

/-- Where the walk from `p` is finite, decoding the token at `p`, with enough fuel, returns a
token when the contents are accepted and panics when they are not; it never reports an error. -/
theorem tokenDecoder_outcome {p : AscPtr} (hp : TokenFinite h p) :
    ∃ fuel, ∀ n, fuel ≤ n →
      (TokenWf h p → ∃ t, ascGetToken n h p = .ok t) ∧
      (¬TokenWf h p → ∃ pa, ascGetToken n h p = .panic pa) := by
  obtain ⟨fuel, hf⟩ := exists_fuel_ne_diverge hp
  refine ⟨fuel, fun n hn => ?_⟩
  have hdiv : ascGetToken n h p ≠ .diverge := by rw [ascGetToken_eq_of_le hf hn]; exact hf
  cases hres : ascGetToken n h p with
  | ok t => exact ⟨fun _ => ⟨t, rfl⟩, fun hwf => absurd (tokenWf_of_ascGetToken_eq_ok hres) hwf⟩
  | panic pa => exact ⟨fun hwf => absurd hres (ascGetToken_ne_panic hwf n pa), fun _ => ⟨pa, rfl⟩⟩
  | diverge => exact absurd hres hdiv

end Accepted

/-! ## What the decoder returns -/

section Decoded

variable {H : Type} [AscHeap H] {h : H}

theorem hasUintList_eq_false {ts : List Token} (h : ∀ t ∈ ts, t.hasUint = false) :
    Token.hasUintList ts = false := by
  induction ts with
  | nil => rfl
  | cons t ts ih =>
    rw [Token.hasUintList, h t (List.mem_cons_self _ _),
      ih fun t' ht' => h t' (List.mem_cons_of_mem _ ht')]
    rfl

/-- The enum decoder returns no `Uint`, given that the elements it returned tokens for hold
none: it reads a `Uint` payload as `Int`. -/
theorem hasUint_of_tokenFromAscObj {g : AscPtr → Outcome Token} {e : AscEnum} {t : Token}
    (hg : ∀ q t, g q = .ok t → t.hasUint = false) (ht : tokenFromAscObj g e h = .ok t) :
    t.hasUint = false := by
  obtain ⟨d, payload⟩ := e
  cases d <;> simp only [tokenFromAscObj, bind_eq_ok, pure_eq, Outcome.ok.injEq] at ht
  case bool => rw [← ht]; rfl
  case address | int | uint | string =>
    obtain ⟨_, _, _, _, rfl⟩ := ht
    rfl
  case fixedBytes | bytes =>
    obtain ⟨_, _, rfl⟩ := ht
    rfl
  case fixedArray | array =>
    obtain ⟨_, _, ts, hts, rfl⟩ := ht
    obtain ⟨_, -, hts⟩ := bind_eq_ok.mp hts
    refine hasUintList_eq_false fun t ht => ?_
    obtain ⟨q, -, hq⟩ := exists_of_mem_traverse_eq_ok hts t ht
    exact hg q t hq

theorem hasUint_of_ascGetToken_eq_ok : ∀ {n : Nat} {p : AscPtr} {t : Token},
    ascGetToken n h p = .ok t → t.hasUint = false
  | n + 1, _, _, ht => by
    rw [ascGetToken_succ] at ht
    obtain ⟨e, -, ht⟩ := bind_eq_ok.mp ht
    exact hasUint_of_tokenFromAscObj (fun _ _ hq => hasUint_of_ascGetToken_eq_ok hq) ht

end Decoded

/-- Every token the decoder returns, from any heap, pointer and fuel, is a fixed point of the
bridge: it holds no `Uint` (the decoder reads a `Uint` payload as `Int`), and on every heap
with the allocation laws, allocating it and decoding it again with more fuel than its nesting
depth returns it exactly. -/
theorem decoded_token_round_trips {H : Type} [AscHeap H] {allocated : H → AscClass → AscPtr → Prop}
    (hl : AllocLaws H allocated) {h : H} {fuel : Nat} {p : AscPtr} {t : Token}
    (hd : ascGetToken fuel h p = .ok t) :
    t.hasUint = false ∧ ∀ (h₀ h' : H) (p' : AscPtr), ascNewToken t h₀ = some (h', p') →
      ∀ fuel', t.depth < fuel' → ascGetToken fuel' h' p' = .ok t := by
  have hu := hasUint_of_ascGetToken_eq_ok hd
  refine ⟨hu, fun h₀ h' p' hn fuel' hf => ?_⟩
  rw [ascGetToken_ascNewToken hl t hn fuel' hf, uintToInt_of_hasUint t hu]

/-! ## Heaps the guest can write -/

/-- An address whose buffer holds 19 bytes, a `Uint` whose buffer holds three words, and a
string that is a lone high surrogate, each behind its enum (at offsets 1, 3 and 5). -/
def malformedHeap : ListHeap := ⟨[
  ⟨.arrayBufferU8, (⟨List.replicate 19 0⟩ : ArrayBuffer UInt8)⟩,
  ⟨.ascEnum, (⟨.address, 0⟩ : AscEnum)⟩,
  ⟨.arrayBufferU64, (⟨[0, 0, 0]⟩ : ArrayBuffer UInt64)⟩,
  ⟨.ascEnum, (⟨.uint, 2⟩ : AscEnum)⟩,
  ⟨.ascString, (⟨[0xD800]⟩ : AscString)⟩,
  ⟨.ascEnum, (⟨.string, 4⟩ : AscEnum)⟩]⟩

theorem malformed_contents_panic :
    TokenFinite malformedHeap ⟨1⟩ ∧
      ascGetToken 1 malformedHeap ⟨1⟩ =
        .panic (.assertion "wrong ArrayBuffer length, expected 20") ∧
    TokenFinite malformedHeap ⟨3⟩ ∧
      ascGetToken 1 malformedHeap ⟨3⟩ = .panic (.assertion "wrong ArrayBuffer length, expected 4") ∧
    TokenFinite malformedHeap ⟨5⟩ ∧
      ascGetToken 1 malformedHeap ⟨5⟩ = .panic (.expect "asc string was not UTF-16") :=
  ⟨tokenFinite_of_children_nil rfl, rfl, tokenFinite_of_children_nil rfl, rfl,
    tokenFinite_of_children_nil rfl, rfl⟩

theorem tokenDecoder_outcome_malformedHeap :
    TokenFinite malformedHeap ⟨1⟩ ∧ ∃ fuel, ∀ n, fuel ≤ n →
      (TokenWf malformedHeap ⟨1⟩ → ∃ t, ascGetToken n malformedHeap ⟨1⟩ = .ok t) ∧
      (¬TokenWf malformedHeap ⟨1⟩ → ∃ pa, ascGetToken n malformedHeap ⟨1⟩ = .panic pa) :=
  ⟨tokenFinite_of_children_nil rfl, tokenDecoder_outcome (tokenFinite_of_children_nil rfl)⟩

/-- A fixed-array token whose element buffer points back at the token's own enum. -/
def cyclicHeap : ListHeap := ⟨[
  ⟨.ascEnum, (⟨.fixedArray, 1⟩ : AscEnum)⟩,
  ⟨.array, (⟨⟨2⟩, 1⟩ : AscArray)⟩,
  ⟨.arrayBufferPtr, (⟨[⟨0⟩]⟩ : ArrayBuffer AscPtr)⟩]⟩

theorem ascGetToken_cyclicHeap : ∀ fuel, ascGetToken fuel cyclicHeap ⟨0⟩ = .diverge
  | 0 => rfl
  | fuel + 1 => by
    have hstep : ascGetToken (fuel + 1) cyclicHeap ⟨0⟩ =
        ((ascGetToken fuel cyclicHeap ⟨0⟩ >>= fun b =>
          Outcome.traverse (ascGetToken fuel cyclicHeap) [] >>= fun bs => pure (b :: bs)) >>=
          fun tokens => pure (.fixedArray tokens)) := rfl
    rw [hstep, ascGetToken_cyclicHeap fuel]
    rfl

/-- No fuel is enough: the decoder follows the cycle without end. -/
theorem cyclic_token_diverges : ¬∃ fuel, ascGetToken fuel cyclicHeap ⟨0⟩ ≠ .diverge :=
  fun ⟨fuel, hf⟩ => hf (ascGetToken_cyclicHeap fuel)

/-- An array token of two elements, both the pointer of one boolean (at offset 3). -/
def nestedHeap : ListHeap := ⟨[
  ⟨.ascEnum, (⟨.bool, 1⟩ : AscEnum)⟩,
  ⟨.arrayBufferPtr, (⟨[⟨0⟩, ⟨0⟩]⟩ : ArrayBuffer AscPtr)⟩,
  ⟨.array, (⟨⟨1⟩, 2⟩ : AscArray)⟩,
  ⟨.ascEnum, (⟨.array, 2⟩ : AscEnum)⟩]⟩

theorem tokenFinite_nestedHeap : TokenFinite nestedHeap ⟨3⟩ :=
  .intro _ fun q hq => by
    have hc : children nestedHeap ⟨3⟩ = [⟨0⟩, ⟨0⟩] := rfl
    rw [hc, List.mem_cons, List.mem_singleton, or_self] at hq
    subst hq
    exact tokenFinite_of_children_nil rfl

theorem ascGetToken_terminates_nestedHeap :
    TokenFinite nestedHeap ⟨3⟩ ∧ ∃ fuel, ascGetToken fuel nestedHeap ⟨3⟩ ≠ .diverge ∧
      ∀ n, fuel ≤ n → ascGetToken n nestedHeap ⟨3⟩ = ascGetToken fuel nestedHeap ⟨3⟩ :=
  ⟨tokenFinite_nestedHeap, ascGetToken_terminates tokenFinite_nestedHeap⟩

theorem decoded_token_round_trips_nestedHeap :
    let t := Token.array [.bool true, .bool true]
    AllocLaws ListHeap ListHeap.Allocated ∧ ascGetToken 2 nestedHeap ⟨3⟩ = .ok t ∧
      (t.hasUint = false ∧ ∀ (h₀ h' : ListHeap) (p' : AscPtr), ascNewToken t h₀ = some (h', p') →
        ∀ fuel', t.depth < fuel' → ascGetToken fuel' h' p' = .ok t) :=
  have hd : ascGetToken 2 nestedHeap ⟨3⟩ = .ok (.array [.bool true, .bool true]) := rfl
  ⟨listHeap_allocLaws, hd, decoded_token_round_trips listHeap_allocLaws hd⟩

end GraphNode.Runtime
