import GraphNode.Runtime.AscAbi.Class
/-!
# A heap that satisfies the allocation laws

A heap that places its objects one after the other, the `i`-th allocated object at offset
`i`, until the 32-bit offsets run out. It satisfies `AllocLaws` (`listHeap_allocLaws`), so the
laws the round trip assumes can hold, and it runs: the concrete cases of the bridges are
evaluated on it.
-/

namespace GraphNode.Runtime

/-- The objects allocated so far, in allocation order. -/
structure ListHeap where
  objs : List (Σ c : AscClass, c.Obj)

namespace ListHeap

/-- The object at the offset, if it has the class read. -/
def get (h : ListHeap) (c : AscClass) (p : AscPtr) : Option c.Obj :=
  match h.objs[p.offset.toNat]? with
  | some ⟨c', o⟩ => if hc : c' = c then some (hc ▸ o) else none
  | none => none

/-- Allocate at the next offset, while there is one. -/
def new (h : ListHeap) (c : AscClass) (o : c.Obj) : Option (ListHeap × AscPtr) :=
  if h.objs.length < UInt32.size then
    some (⟨h.objs ++ [⟨c, o⟩]⟩, ⟨UInt32.ofNat h.objs.length⟩)
  else none

instance : AscHeap ListHeap := ⟨get, new⟩

/-- The objects allocated at their class. -/
def Allocated (h : ListHeap) (c : AscClass) (p : AscPtr) : Prop := (h.get c p).isSome

theorem eq_of_new {h h' : ListHeap} {c : AscClass} {o : c.Obj} {p : AscPtr}
    (hn : AscHeap.new h c o = some (h', p)) :
    h.objs.length < UInt32.size ∧ h' = ⟨h.objs ++ [⟨c, o⟩]⟩ ∧ p.offset.toNat = h.objs.length := by
  change new h c o = some (h', p) at hn
  unfold new at hn
  split at hn
  · rename_i hlt
    cases hn
    exact ⟨hlt, rfl, UInt32.toNat_ofNat_of_lt hlt⟩
  · cases hn

theorem lt_of_allocated {h : ListHeap} {c : AscClass} {p : AscPtr} (ha : h.Allocated c p) :
    p.offset.toNat < h.objs.length := by
  unfold Allocated get at ha
  split at ha
  · rename_i hs; exact (List.getElem?_eq_some_iff.mp hs).1
  · cases ha

theorem get_append {h : ListHeap} {x : Σ c : AscClass, c.Obj} {c : AscClass} {p : AscPtr}
    (hp : p.offset.toNat < h.objs.length) : get ⟨h.objs ++ [x]⟩ c p = get h c p := by
  simp only [get, List.getElem?_append_left hp]

end ListHeap

theorem listHeap_allocLaws : AllocLaws ListHeap ListHeap.Allocated where
  get_new hn := by
    obtain ⟨-, rfl, hp⟩ := ListHeap.eq_of_new hn
    simp [AscHeap.get, ListHeap.get, hp]
  allocated_new hn := by
    obtain ⟨-, rfl, hp⟩ := ListHeap.eq_of_new hn
    simp [ListHeap.Allocated, ListHeap.get, hp]
  allocated_of_new hn ha := by
    obtain ⟨-, rfl, -⟩ := ListHeap.eq_of_new hn
    rw [ListHeap.Allocated, ListHeap.get_append (ListHeap.lt_of_allocated ha)]
    exact ha
  get_of_new hn ha := by
    obtain ⟨-, rfl, -⟩ := ListHeap.eq_of_new hn
    exact ListHeap.get_append (ListHeap.lt_of_allocated ha)

end GraphNode.Runtime
