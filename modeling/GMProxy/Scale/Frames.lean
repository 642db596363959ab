import GMProxy.Library.Heap
import GMProxy.Scale.Buffers

/-!
# Frames of the scaler

The blocks behind a `YUVFrame_t`: its record, the planes that `scale` allocates for it beside three
scratch planes, and what `freeYUVFrame` gives back. `malloc` is taken to succeed.
-/

namespace GMProxy.TdScale

open Heap

/-- `buff_t` -/
structure Buff where
  data : Option Nat
  size : Int
deriving DecidableEq

/-- `YUVFrame_t`, with `data[0]`, `data[1]`, `data[2]`, `stride[0]` and `stride[1]`. -/
structure YUVFrame where
  y : Buff
  u : Buff
  v : Buff
  yStride : Int
  uvStride : Int
  width : Int
  height : Int
deriving DecidableEq

/-- The bytes of a frame are zero. -/
def YUVFrame.zero : YUVFrame := ⟨⟨none, 0⟩, ⟨none, 0⟩, ⟨none, 0⟩, 0, 0, 0, 0⟩

/-- The heap behind it, the block of the record and the frame in it. -/
def newEmptyYUVFrame (heap : Heap) : Heap × Nat × YUVFrame := (heap.malloc, heap.next, .zero)

/-- The heap with the planes of `dstFrame` and the frame with its planes. -/
def mallocPlanes (heap : Heap) (dstFrame : YUVFrame) : Heap × YUVFrame :=
  let ySize := yPlaneSize dstFrame.width dstFrame.height
  let uvSize := uvPlaneSize dstFrame.width dstFrame.height
  let y := heap.next
  let heap := heap.malloc
  let u := heap.next
  let heap := heap.malloc
  let v := heap.next
  let heap := heap.malloc
  (heap, { dstFrame with y := ⟨some y, ySize⟩, u := ⟨some u, uvSize⟩, v := ⟨some v, uvSize⟩ })

/-- `free` of the three planes of a frame, one after the other. -/
def freePlanes (heap : Heap) (frame : YUVFrame) : Option Heap := do
  let heap ← heap.free frame.y.data
  let heap ← heap.free frame.u.data
  heap.free frame.v.data

/-- The scratch planes of `scale`, with their strides and sizes. -/
def scratchFrame (heap : Heap) (dstFrame : YUVFrame) : Heap × YUVFrame :=
  let (heap, scratch) := mallocPlanes heap dstFrame
  (heap, { scratch with yStride := dstFrame.width, uvStride := halved dstFrame.width })

/-- `i420Scale` is `I420Scale`: the status that it returns for a source and the scratch planes. What it
and the copies put into the planes is left out; `convert` passes no null pointer for a frame. -/
def scale (i420Scale : YUVFrame → YUVFrame → Int) (heap : Heap) (srcFrame dstFrame : YUVFrame) :
    Option (Int × Heap × YUVFrame) :=
  let (heap, scratch) := scratchFrame heap dstFrame
  let status := i420Scale srcFrame scratch
  if status ≠ 0 then some (-1, heap, dstFrame)
  else do
    let (heap, dstFrame) := mallocPlanes heap dstFrame
    let dstFrame :=
      { dstFrame with yStride := dstFrame.width, uvStride := halved dstFrame.width }
    let heap ← freePlanes heap scratch
    some (0, heap, dstFrame)

/-- `freeYUVFrame` leaves the frame empty; its record is not given back. -/
def freeYUVFrame (heap : Heap) (frame : YUVFrame) : Option (Heap × YUVFrame) := do
  let heap ← freePlanes heap frame
  some (heap, .zero)

/-- The planes of a frame are these three blocks. -/
structure YUVFrame.HasPlanes (frame : YUVFrame) (y u v : Nat) : Prop where
  y : frame.y.data = some y
  u : frame.u.data = some u
  v : frame.v.data = some v

variable {i420Scale : YUVFrame → YUVFrame → Int} {heap : Heap} {srcFrame dstFrame : YUVFrame}
  {y u v : Nat}

theorem scale_failed (hstatus : i420Scale srcFrame (scratchFrame heap dstFrame).2 ≠ 0) :
    scale i420Scale heap srcFrame dstFrame = some (-1, heap.malloc.malloc.malloc, dstFrame) :=
  if_pos hstatus

/-- The planes of a frame are given back, and nothing else is. -/
theorem exists_freePlanes {frame : YUVFrame} (hplanes : frame.HasPlanes y u v)
    (hlive : y ∈ heap.live ∧ u ∈ heap.live ∧ v ∈ heap.live) (hdistinct : y ≠ u ∧ y ≠ v ∧ u ≠ v) :
    ∃ heap', freePlanes heap frame = some heap' ∧ heap'.next = heap.next ∧
      ∀ id, id ∈ heap'.live ↔ id ≠ y ∧ id ≠ u ∧ id ≠ v ∧ id ∈ heap.live := by
  obtain ⟨hy, hu, hv⟩ := hlive
  obtain ⟨hyu, hyv, huv⟩ := hdistinct
  have hu' : u ∈ (heap.drop y).live := mem_drop.mpr ⟨hyu.symm, hu⟩
  have hv' : v ∈ ((heap.drop y).drop u).live :=
    mem_drop.mpr ⟨huv.symm, mem_drop.mpr ⟨hyv.symm, hv⟩⟩
  refine ⟨((heap.drop y).drop u).drop v, ?_, rfl, fun id => ?_⟩
  · simp only [freePlanes, hplanes.y, hplanes.u, hplanes.v, free_live hy, free_live hu',
      free_live hv', Option.bind_eq_bind, Option.bind_some]
  · simp only [mem_drop]
    tauto

theorem mem_mallocPlanes (heap : Heap) (dstFrame : YUVFrame) (id : Nat) : id ∈ (mallocPlanes heap dstFrame).1.live ↔
    id = heap.next + 2 ∨ id = heap.next + 1 ∨ id = heap.next ∨ id ∈ heap.live := by
  simp only [mallocPlanes, mem_malloc, malloc_next]

/-- A scaling that succeeds leaves the planes of the frame and nothing else. -/
theorem exists_scale (hstatus : i420Scale srcFrame (scratchFrame heap dstFrame).2 = 0) :
    ∃ heap' frame, scale i420Scale heap srcFrame dstFrame = some (0, heap', frame) ∧
      frame.HasPlanes (heap.next + 3) (heap.next + 4) (heap.next + 5) ∧
      heap'.next = heap.next + 6 ∧
      ∀ id, id ∈ heap'.live ↔ id = heap.next + 3 ∨ id = heap.next + 4 ∨ id = heap.next + 5 ∨
        id ∈ heap.live := by
  have hscratch : (scratchFrame heap dstFrame).2.HasPlanes heap.next (heap.next + 1)
      (heap.next + 2) := ⟨rfl, rfl, rfl⟩
  have hmem (id : Nat) : id ∈ (mallocPlanes (scratchFrame heap dstFrame).1 dstFrame).1.live ↔
      (id = heap.next + 5 ∨ id = heap.next + 4 ∨ id = heap.next + 3) ∨
        id = heap.next + 2 ∨ id = heap.next + 1 ∨ id = heap.next ∨ id ∈ heap.live := by
    have hinner : id ∈ (scratchFrame heap dstFrame).1.live ↔ _ :=
      mem_mallocPlanes heap dstFrame id
    have houter : id ∈ (mallocPlanes (scratchFrame heap dstFrame).1 dstFrame).1.live ↔
        id = heap.next + 5 ∨ id = heap.next + 4 ∨ id = heap.next + 3 ∨ _ :=
      mem_mallocPlanes _ dstFrame id
    rw [houter, hinner, or_assoc, or_assoc]
  obtain ⟨heap', hfree, hnext, hlive⟩ := exists_freePlanes hscratch
    ⟨(hmem _).mpr (by simp), (hmem _).mpr (by simp), (hmem _).mpr (by simp)⟩
    ⟨by omega, by omega, by omega⟩
  refine ⟨heap', { (mallocPlanes (scratchFrame heap dstFrame).1 dstFrame).2 with
    yStride := dstFrame.width, uvStride := halved dstFrame.width }, ?_, ⟨rfl, rfl, rfl⟩, hnext, ?_⟩
  · simp only [scale, hstatus, ne_eq, not_true_eq_false, if_false, hfree, Option.bind_eq_bind,
      Option.bind_some]
    rfl
  · intro id
    rw [hlive, hmem]
    by_cases hid : id ∈ heap.live
    · have hold := heap.fresh id hid
      simp only [hid, or_true, and_true, iff_true]
      omega
    · simp only [hid, or_false]
      omega

end GMProxy.TdScale
