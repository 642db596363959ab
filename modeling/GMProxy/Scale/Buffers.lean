import GMProxy.Library.CMemory

/-!
# The buffers of the scaler

The scratch planes and the copies of `TdScale::scale`. `align_buffer_page_end` allocates whole pages
and puts the plane at their end, rounded down to 64 bytes.
-/

namespace GMProxy.TdScale

open CMemory

/-- `((size) + 4095 + 63) & ~4095`. -/
def pageBytes (size : Int) : Int := (BitVec.ofInt 32 (size + 4095 + 63) &&& ~~~4095#32).toInt

/-- What `align_buffer_page_end` declares, and how many bytes it allocates at `mem`. -/
structure Scratch where
  mem : BitVec 64
  allocated : Nat
  var : BitVec 64

def alignBufferPageEnd (mem : BitVec 64) (size : Int) : Scratch where
  mem := mem
  allocated := toSize (pageBytes size)
  var := (mem + BitVec.ofInt 64 (pageBytes size) - BitVec.ofInt 64 size) &&& ~~~63#64

/-- What `malloc` promises of a block: it is part of the address space. -/
def IsBlock (address : BitVec 64) (size : Nat) : Prop := address.toNat + size ≤ 2 ^ 64

instance (address : BitVec 64) (size : Nat) : Decidable (IsBlock address size) :=
  inferInstanceAs (Decidable (_ ≤ _))

theorem pageBytes_eq {size : Int} (hlo : 0 ≤ size) (hhi : size + 4158 < 2 ^ 31) :
    pageBytes size = (size + 4158) / 4096 * 4096 := by
  have hmask : ~~~4095#32 = BitVec.allOnes 32 <<< 12 := by decide
  have hsum : (BitVec.ofInt 32 (size + 4095 + 63)).toNat = (size + 4158).toNat := by
    rw [BitVec.toNat_ofInt]
    omega
  have hnat : (BitVec.ofInt 32 (size + 4095 + 63) &&& ~~~4095#32).toNat =
      (size + 4158).toNat / 2 ^ 12 * 2 ^ 12 := by
    rw [hmask, toNat_and_allOnes_shiftLeft, hsum]
  rw [pageBytes, BitVec.toInt_eq_toNat_of_lt (by rw [hnat]; omega), hnat]
  omega

/-- The plane is aligned and lies in its block. -/
theorem alignBufferPageEnd_fits {mem : BitVec 64} {size : Int} (hpos : 0 < size)
    (hhi : size + 4158 < 2 ^ 31) (hblock : IsBlock mem (toSize (pageBytes size))) :
    (alignBufferPageEnd mem size).var.toNat % 64 = 0 ∧
      mem.toNat ≤ (alignBufferPageEnd mem size).var.toNat ∧
      (alignBufferPageEnd mem size).var.toNat + size.toNat ≤
        mem.toNat + (alignBufferPageEnd mem size).allocated := by
  have hpage := pageBytes_eq (by omega) hhi
  have hallocated : toSize (pageBytes size) = (pageBytes size).toNat :=
    toSize_of_nonneg (by omega) (by omega)
  have hmask : ~~~63#64 = BitVec.allOnes 64 <<< 6 := by decide
  have hpointer : (mem + BitVec.ofInt 64 (pageBytes size) - BitVec.ofInt 64 size).toNat =
      mem.toNat + (pageBytes size).toNat - size.toNat := by
    rw [IsBlock, hallocated] at hblock
    rw [BitVec.toNat_sub, BitVec.toNat_add, BitVec.toNat_ofInt, BitVec.toNat_ofInt]
    omega
  have hvar : (alignBufferPageEnd mem size).var.toNat =
      (mem.toNat + (pageBytes size).toNat - size.toNat) / 2 ^ 6 * 2 ^ 6 := by
    rw [alignBufferPageEnd, hmask, toNat_and_allOnes_shiftLeft, hpointer]
  have hsize : (alignBufferPageEnd mem size).allocated = (pageBytes size).toNat := hallocated
  -- the page bytes leave at least 63 bytes in front of the plane
  rw [hvar, hsize]
  omega

/-- `SUBSAMPLE(v, 1, 1)` of the scaling library. -/
def subsample (v : Int) : Int := if v < 0 then -((-v + 1) >>> (1 : Nat)) else (v + 1) >>> (1 : Nat)

/-- `(abs(v) + 1) >> 1`. -/
def halved (v : Int) : Int := ((v.natAbs : Int) + 1) >>> (1 : Nat)

/-- `dst_y_plane_size`. -/
def yPlaneSize (width height : Int) : Int := toInt (width * height)

/-- `dst_uv_plane_size`. -/
def uvPlaneSize (width height : Int) : Int := toInt (halved width * halved height)

/-- The addresses that a plane gets from `malloc`: its scratch block, and its block in `dstFrame`. -/
structure PlaneAddresses where
  mem : BitVec 64
  data : BitVec 64

/-- A plane of `scale`: the scratch plane of `size` bytes, the rows that `I420Scale` writes into it,
and the block of `dstFrame` that it is copied into. -/
structure ScaledPlane where
  scratch : Scratch
  size : Int
  stride : Int
  rows : Int
  cols : Int
  data : BitVec 64
  dataSize : Nat
  copied : Nat

def scaledPlane (a : PlaneAddresses) (size stride rows cols : Int) : ScaledPlane where
  scratch := alignBufferPageEnd a.mem size
  size := size
  stride := stride
  rows := rows
  cols := cols
  data := a.data
  dataSize := toSize size
  copied := toSize size

/-- The three planes of `scale` for a `dstFrame` of that width and height. -/
def scaledPlanes (width height : Int) (y u v : PlaneAddresses) : List ScaledPlane :=
  [scaledPlane y (yPlaneSize width height) width height width,
    scaledPlane u (uvPlaneSize width height) (halved width) (subsample height) (subsample width),
    scaledPlane v (uvPlaneSize width height) (halved width) (subsample height) (subsample width)]

/-- The blocks that `malloc` gave for a plane. -/
def ScaledPlane.Allocated (p : ScaledPlane) : Prop :=
  IsBlock p.scratch.mem p.scratch.allocated ∧ IsBlock p.data p.dataSize

instance (p : ScaledPlane) : Decidable p.Allocated := inferInstanceAs (Decidable (_ ∧ _))

/-- Everything that is written to a plane or copied out of it stays in its buffers. -/
structure ScaledPlane.Fits (p : ScaledPlane) : Prop where
  aligned : p.scratch.var.toNat % 64 = 0
  inBlock : p.scratch.mem.toNat ≤ p.scratch.var.toNat ∧
    p.scratch.var.toNat + p.size.toNat ≤ p.scratch.mem.toNat + p.scratch.allocated
  written : ∀ row col : Int, 0 ≤ row → row < p.rows → 0 ≤ col → col < p.cols →
    0 ≤ row * p.stride + col ∧ row * p.stride + col < p.size
  copySource : p.scratch.var.toNat + p.copied ≤ p.scratch.mem.toNat + p.scratch.allocated
  copyTarget : p.copied ≤ p.dataSize

theorem scaledPlane_fits {a : PlaneAddresses} {size rows cols : Int} (hpos : 0 < size)
    (hhi : size + 4158 < 2 ^ 31) (hsize : size = rows * cols)
    (hblock : (scaledPlane a size cols rows cols).Allocated) :
    (scaledPlane a size cols rows cols).Fits := by
  obtain ⟨haligned, hfront, hend⟩ := alignBufferPageEnd_fits hpos hhi hblock.1
  have hcopied : toSize size = size.toNat := toSize_of_nonneg (by omega) (by omega)
  refine ⟨haligned, ⟨hfront, hend⟩, ?_, ?_, Nat.le_refl _⟩
  · intro row col hrow (hrows : row < rows) hcol (hcols : col < cols)
    have hnonneg : 0 ≤ row * cols := Int.mul_nonneg hrow (by omega)
    have hnext : (row + 1) * cols ≤ rows * cols :=
      Int.mul_le_mul_of_nonneg_right (by omega) (by omega)
    rw [Int.add_mul, Int.one_mul] at hnext
    change 0 ≤ row * cols + col ∧ row * cols + col < size
    omega
  · change _ + toSize size ≤ _
    rw [hcopied]
    exact hend

/-- The plane has rows of that width, one behind the other, in the blocks of those addresses. -/
structure ScaledPlane.Covers (p : ScaledPlane) (a : PlaneAddresses) (height width : Int) : Prop where
  mem : p.scratch.mem = a.mem
  data : p.data = a.data
  rows : p.rows = height
  cols : p.cols = width
  stride : p.stride = width
  size : p.size = width * height
  copied : (p.copied : Int) = width * height

theorem scaledPlane_covers {a : PlaneAddresses} {rows cols : Int} (hpos : 0 < cols * rows)
    (hsize : cols * rows + 4158 < 2 ^ 31) :
    (scaledPlane a (cols * rows) cols rows cols).Covers a rows cols :=
  ⟨rfl, rfl, rfl, rfl, rfl, rfl, by
    change (toSize (cols * rows) : Int) = _
    rw [toSize_of_nonneg (by omega) (by omega), Int.toNat_of_nonneg (by omega)]⟩

theorem half_le {v : Int} (h : 0 < v) : 0 < (v + 1) / 2 ∧ (v + 1) / 2 ≤ v := by
  omega

/-- The buffers of `scale` suffice for every size: three planes of `height` rows and of half as many. -/
theorem scale_buffers_suffice {width height : Int} (hwidth : 0 < width) (hheight : 0 < height)
    (hsize : width * height + 4158 < 2 ^ 31) (y u v : PlaneAddresses)
    (hblocks : ∀ p ∈ scaledPlanes width height y u v, p.Allocated) :
    ∃ yPlane uPlane vPlane, scaledPlanes width height y u v = [yPlane, uPlane, vPlane] ∧
      (yPlane.Covers y height width ∧ yPlane.Fits) ∧
      (uPlane.Covers u ((height + 1) / 2) ((width + 1) / 2) ∧ uPlane.Fits) ∧
      (vPlane.Covers v ((height + 1) / 2) ((width + 1) / 2) ∧ vPlane.Fits) := by
  have hpos : 0 < width * height := Int.mul_pos hwidth hheight
  have hhalf : ∀ n : Int, 0 < n → halved n = (n + 1) / 2 ∧ subsample n = (n + 1) / 2 := by
    intro n hn
    rw [halved, subsample, if_neg (by omega), Int.shiftRight_eq_div_pow, Int.shiftRight_eq_div_pow]
    omega
  obtain ⟨hw, hwsub⟩ := hhalf width hwidth
  obtain ⟨hh, hhsub⟩ := hhalf height hheight
  have hwhalf := half_le hwidth
  have hhhalf := half_le hheight
  have huvpos : 0 < (width + 1) / 2 * ((height + 1) / 2) := Int.mul_pos hwhalf.1 hhhalf.1
  have huvle : (width + 1) / 2 * ((height + 1) / 2) ≤ width * height :=
    Int.mul_le_mul hwhalf.2 hhhalf.2 (by omega) (by omega)
  have huvsize : (width + 1) / 2 * ((height + 1) / 2) + 4158 < 2 ^ 31 :=
    Int.lt_of_le_of_lt (Int.add_le_add_right huvle _) hsize
  have hy : yPlaneSize width height = width * height := by
    rw [yPlaneSize]
    exact toInt_of_mem (by omega) (by omega)
  have huv : uvPlaneSize width height = (width + 1) / 2 * ((height + 1) / 2) := by
    rw [uvPlaneSize, hw, hh]
    exact toInt_of_mem (by omega) (by omega)
  simp only [scaledPlanes, hw, hwsub, hhsub, hy, huv, List.forall_mem_cons] at hblocks ⊢
  obtain ⟨hyblock, hublock, hvblock, -⟩ := hblocks
  exact ⟨_, _, _, rfl,
    ⟨scaledPlane_covers hpos hsize, scaledPlane_fits hpos hsize (Int.mul_comm _ _) hyblock⟩,
    ⟨scaledPlane_covers huvpos huvsize,
      scaledPlane_fits huvpos huvsize (Int.mul_comm _ _) hublock⟩,
    ⟨scaledPlane_covers huvpos huvsize,
      scaledPlane_fits huvpos huvsize (Int.mul_comm _ _) hvblock⟩⟩

/-- A frame of three by five pixels, with blocks at the end of a page. -/
theorem scale_buffers_odd : ∃ yPlane uPlane vPlane,
    scaledPlanes 3 5 ⟨0x10fff0, 0x200000⟩ ⟨0x300010, 0x400000⟩ ⟨0x500010, 0x600000⟩ =
        [yPlane, uPlane, vPlane] ∧
      (yPlane.Covers ⟨0x10fff0, 0x200000⟩ 5 3 ∧ yPlane.Fits) ∧
      (uPlane.Covers ⟨0x300010, 0x400000⟩ 3 2 ∧ uPlane.Fits) ∧
      (vPlane.Covers ⟨0x500010, 0x600000⟩ 3 2 ∧ vPlane.Fits) := by
  refine scale_buffers_suffice (by decide) (by decide) (by decide) _ _ _ ?_
  simp only [scaledPlanes, List.forall_mem_cons]
  exact ⟨by decide, by decide, by decide, List.forall_mem_nil _⟩

end GMProxy.TdScale
