import LaiMiniOs.Fs.Blocks
import LaiMiniOs.Fs.Cache

/-! Which blocks an inode reaches, and the bits that stand for them.

The blocks of an inode are numbered by position: 0 to 139 for its data and 140 for the
table of the indirect ones.
-/

set_option autoImplicit false

namespace LaiMiniOs
open Foundation Prog Function

variable {inode inode' : Inode} {k i : Nat} {v v' : Volume} {s : Fs} {lba : Word}

namespace Volume

def table (v : Volume) (inode : Inode) : Memory :=
  if inode.sector 12 = 0 then Memory.zero else v.block (inode.sector 12).toNat

def pointer (v : Volume) (inode : Inode) (k : Nat) : Word :=
  if k = 140 then inode.sector 12 else allBlocks inode (v.table inode) k

def Reaches (v : Volume) (inode : Inode) (lba : Nat) : Prop :=
  ∃ k, k ≤ 140 ∧ v.pointer inode k ≠ 0 ∧ (v.pointer inode k).toNat = lba

def mark (v : Volume) (t : BitmapType) (i : Nat) (value : Bool) : Volume := (v.setBit t i value).sync t i

def KeepsSync (v v' : Volume) : Prop := ∀ t i, v.stored t i = v.bit t i → v'.stored t i = v'.bit t i

theorem KeepsSync.refl (v : Volume) : KeepsSync v v := fun _ _ same => same

theorem KeepsSync.trans {v'' : Volume} (first : KeepsSync v v') (second : KeepsSync v' v'') :
    KeepsSync v v'' := fun t i same => second t i (first t i same)

theorem KeepsSync.of_eq (bit : v'.bit = v.bit) (stored : v'.stored = v.stored) : KeepsSync v v' := by
  intro t i same
  rw [bit, stored]
  exact same

section
variable (v : Volume) (t : BitmapType) (i : Nat) (value : Bool)

@[simp] theorem record_mark : (v.mark t i value).record = v.record := rfl

@[simp] theorem block_mark : (v.mark t i value).block = v.block := rfl

theorem bit_mark (t' : BitmapType) (j : Nat) :
    (v.mark t i value).bit t' j = if t' = t ∧ j = i then value else v.bit t' j := by
  unfold mark sync setBit
  by_cases same : t' = t
  · subst same
    simp only [update_self, update_apply, true_and]
  · simp [same]

theorem bit_mark_other {t' : BitmapType} (apart : t' ≠ t) : (v.mark t i value).bit t' = v.bit t' := by
  funext j
  rw [bit_mark, if_neg fun both => apart both.1]

/-- A bit that is stored at once leaves the others as they were, or stores them too. -/
theorem keepsSync_mark : KeepsSync v (v.mark t i value) := by
  intro t' j same
  rw [bit_mark]
  unfold mark sync setBit
  by_cases map : t' = t
  · subst map
    simp only [update_self, update_apply, true_and]
    by_cases here : j = i
    · subst here
      simp
    · simp [here, same]
  · simp [map, same]

theorem stored_mark_sector {j : Nat} (sector : j / 4096 = i / 4096) :
    (v.mark t i value).stored t j = (v.mark t i value).bit t j := by
  simp [mark, sync, setBit, sector]

end

theorem pointer_congr (sectors : ∀ k, inode'.sector k = inode.sector k)
    (table : inode.sector 12 ≠ 0 → v'.block (inode.sector 12).toNat = v.block (inode.sector 12).toNat) (k : Nat) :
    v'.pointer inode' k = v.pointer inode k := by
  have tables : v'.table inode' = v.table inode := by
    unfold Volume.table
    rw [sectors 12]
    split
    next => rfl
    next present => exact table present
  simp only [pointer, allBlocks, tables, sectors]

theorem pointer_setSector (inode : Inode) (direct : k < 12) (lba : Word)
    (table : inode.sector 12 ≠ 0 → v'.block (inode.sector 12).toNat = v.block (inode.sector 12).toNat) (k' : Nat) :
    v'.pointer (inode.setSector k lba) k' = if k' = k then lba else v.pointer inode k' := by
  have sector (k'' : Nat) : (inode.setSector k lba).sector k'' = if k'' = k then lba else inode.sector k'' := by
    rw [Inode.sector_setSector]
    simp only [show k < 13 by omega, and_true]
  have last : (inode.setSector k lba).sector 12 = inode.sector 12 := by rw [sector, if_neg (by omega)]
  have tables : v'.table (inode.setSector k lba) = v.table inode := by
    unfold Volume.table
    rw [last]
    split
    next => rfl
    next present => exact table present
  unfold pointer allBlocks
  rw [tables, last, sector]
  by_cases here : k' = k
  · rw [if_pos here, if_neg (by omega), if_pos (by omega), if_pos here]
  · rw [if_neg here, if_neg here]

theorem pointer_direct (v : Volume) (inode : Inode) (low : k < 12) : v.pointer inode k = inode.sector k := by
  rw [pointer, if_neg (by omega), allBlocks, if_pos low]

theorem pointer_indirect (v : Volume) (inode : Inode) (low : 12 ≤ k) (high : k < 140) :
    v.pointer inode k = (v.table inode).word (4 * (k - 12)) := by
  rw [pointer, if_neg (by omega), allBlocks, if_neg (by omega)]

theorem pointer_table (v : Volume) (inode : Inode) : v.pointer inode 140 = inode.sector 12 := if_pos rfl

def byte (v : Volume) (inode : Inode) (x : Nat) : Byte := v.block (v.pointer inode (x / 512)).toNat (x % 512)

def HasBlocks (v : Volume) (inode : Inode) (n : Nat) : Prop := ∀ k, k < 140 → (v.pointer inode k ≠ 0 ↔ k < n)

theorem pointer_of_no_table (none : inode.sector 12 = 0) (high : 12 ≤ k) :
    v.pointer inode k = 0 := by
  unfold pointer allBlocks table
  rw [none]
  split
  next => rfl
  next =>
    rw [if_neg (by omega), if_pos rfl]
    exact Memory.word_zero _

end Volume

def Fs.BlockNo (s : Fs) (lba : Word) (i : Nat) : Prop :=
  i < s.part.bitCount .block ∧ lba.toNat = s.part.sb.dataStartLba.toNat + i

/-- The positions of the inode hold blocks of the data area, the root directory's first block excepted. -/
def Fs.InData (s : Fs) (inode : Inode) : Prop :=
  ∀ k, k ≤ 140 → s.volume.pointer inode k ≠ 0 → ∃ i, 0 < i ∧ s.BlockNo (s.volume.pointer inode k) i

structure Fs.Owns (s : Fs) (inode : Inode) : Prop where
  used : ∀ k, k ≤ 140 → s.volume.pointer inode k ≠ 0 →
    ∃ i, s.BlockNo (s.volume.pointer inode k) i ∧ s.volume.bit .block i = true
  apart : ∀ k k', k ≤ 140 → k' ≤ 140 → s.volume.pointer inode k ≠ 0 →
    s.volume.pointer inode k = s.volume.pointer inode k' → k = k'

theorem Fs.Owns.inData (owns : s.Owns inode)
    (root : ¬ s.volume.Reaches inode s.part.sb.dataStartLba.toNat) : s.InData inode := by
  intro k hk some
  obtain ⟨i, number, -⟩ := owns.used k hk some
  refine ⟨i, Nat.pos_of_ne_zero fun zero => ?_, number⟩
  subst zero
  exact root ⟨k, hk, some, number.2⟩

theorem Fs.Owns.of_sectors (owns : s.Owns inode)
    (same : ∀ k, inode'.sector k = inode.sector k) : s.Owns inode' := by
  have pointer := Volume.pointer_congr (v := s.volume) same (fun _ => rfl)
  exact ⟨fun k hk some => by rw [pointer] at some ⊢; exact owns.used k hk some,
    fun k k' hk hk' some equal =>
      by rw [pointer] at some; rw [pointer, pointer] at equal; exact owns.apart k k' hk hk' some equal⟩

theorem Fs.Owns.ne_free (owns : s.Owns inode) (layout : Layout s.part)
    (inside : i < s.part.bitCount .block) (free : s.volume.bit .block i = false) (hk : k ≤ 140)
    (some : s.volume.pointer inode k ≠ 0) : (s.volume.pointer inode k).toNat ≠ (s.lbaOf i).toNat := by
  intro same
  obtain ⟨j, ⟨-, sum⟩, used⟩ := owns.used k hk some
  grind [toNat_lbaOf]

section
variable {s : Fs}

theorem readTable_eq (low : inode.sector 12 ≠ 0 → s.part.sb.dataStartLba.toNat ≤ (inode.sector 12).toNat)
    (high : (inode.sector 12).toNat ≤ maxLba) : readTable inode s = .ok (s.volume.table inode, s) := by
  unfold readTable Volume.table
  grind [run_pure, Addressable, ideRead_eq, Fs.volume]

theorem word_tableImage (blocks : Nat → Word) (low : 12 ≤ k) (high : k < 140) :
    ((tableImage blocks).clip 512).word (4 * (k - 12)) = blocks k := by
  have inside : Memory.AgreeOn (4 * (k - 12)) 4 ((tableImage blocks).clip 512) (tableImage blocks) :=
    fun i _ _ => Memory.clip_apply (by omega)
  rw [Memory.word_congr inside, tableImage, Memory.word_ofWords]
  congr 1
  omega

theorem pointer_putTable (layout : Layout s.part) (blocks : Nat → Word) (present : inode.sector 12 ≠ 0)
    (low : s.part.sb.dataStartLba.toNat ≤ (inode.sector 12).toNat) (k : Nat) (hk : k < 140) :
    (s.putSector (inode.sector 12).toNat (tableImage blocks)).volume.pointer inode k =
      if k < 12 then inode.sector k else blocks k := by
  split
  next direct => exact Volume.pointer_direct _ _ direct
  next indirect =>
    rw [Volume.pointer_indirect _ _ (by omega) hk, Volume.table, if_neg present, volume_putSector layout low]
    have table : (s.volume.putBlock (inode.sector 12).toNat (tableImage blocks)).block (inode.sector 12).toNat =
        (tableImage blocks).clip 512 := update_self _ _ _
    rw [table, word_tableImage blocks (by omega) hk]

def Fs.mark (s : Fs) (t : BitmapType) (i : Nat) (value : Bool) : Fs := (s.setBit t i value).syncBits t i

@[simp] theorem geometry_mark (s : Fs) (t : BitmapType) (i : Nat) (value : Bool) :
    (s.mark t i value).part.geometry = s.part.geometry :=
  geometry_setBit s t i value

theorem volume_mark (layout : Layout s.part) {t : BitmapType} (h : i < s.part.bitCount t) (value : Bool) :
    (s.mark t i value).volume = s.volume.mark t i value := by
  unfold Fs.mark Volume.mark
  rw [volume_syncBits (layout.congr (geometry_setBit s t i value))
    (by rw [bitCount_congr (geometry_setBit s t i value)]; exact h), volume_setBit]

theorem sub_dataStart (number : s.BlockNo lba i) : (lba - s.part.sb.dataStartLba).toNat = i := by
  obtain ⟨_, sum⟩ := number
  rw [BitVec.toNat_sub]
  omega

theorem bitmapSet_bitmapSync (layout : Layout s.part) {t : BitmapType} {bitIdx : Word}
    (h : bitIdx.toNat < s.part.bitCount t) (value : Bool) :
    (do bitmapSet t bitIdx value; bitmapSync bitIdx t : FsM Unit) s = .ok ((), s.mark t bitIdx.toNat value) := by
  rw [bind_of_ok (bitmapSet_eq_ok.mpr ⟨h, rfl⟩)]
  refine (bitmapSync_eq_ok (layout.congr (geometry_setBit s t _ value))).mpr ⟨?_, rfl⟩
  rw [bitCount_congr (geometry_setBit s t _ value)]
  exact h

theorem releaseBlock_eq (layout : Layout s.part) (away : 0 < i) (number : s.BlockNo lba i) :
    releaseBlock lba s = .ok ((), s.mark .block i false) := by
  have index := sub_dataStart number
  unfold releaseBlock
  rw [get_bind,
    require_bind (by rw [index]; exact away),
    bitmapSet_bitmapSync layout (by rw [index]; exact number.1), index]

end

theorem BlockNo.congr {t : Fs} (same : t.part.geometry = s.part.geometry)
    (number : s.BlockNo lba i) : t.BlockNo lba i := by
  obtain ⟨high, sum⟩ := number
  have sb : t.part.sb = s.part.sb := congrArg (·.2.2.1) same
  exact ⟨by rw [bitCount_congr same]; exact high, by rw [sb]; exact sum⟩

theorem Fs.Owns.mono {t : Fs} (owns : s.Owns inode) (geometry : t.part.geometry = s.part.geometry)
    (bits : ∀ i, s.volume.bit .block i = true → t.volume.bit .block i = true)
    (pointer : ∀ k, t.volume.pointer inode k = s.volume.pointer inode k) : t.Owns inode := by
  constructor
  · intro k hk some
    rw [pointer] at some ⊢
    obtain ⟨i, place, used⟩ := owns.used k hk some
    exact ⟨i, BlockNo.congr geometry place, bits i used⟩
  · intro k k' hk hk' some same
    rw [pointer] at some
    rw [pointer, pointer] at same
    exact owns.apart k k' hk hk' some same

/-- The inode has got new blocks at some positions: blocks that were free, each of them once. -/
structure Extended (s s' : Fs) (inode inode' : Inode) (fresh : Nat → Prop) : Prop where
  geometry : s'.part.geometry = s.part.geometry
  kept : ∀ k, k ≤ 140 → ¬ fresh k → s'.volume.pointer inode' k = s.volume.pointer inode k
  empty : ∀ k, k ≤ 140 → fresh k → s.volume.pointer inode k = 0
  free : ∀ k, k ≤ 140 → fresh k →
    ∃ i, s.BlockNo (s'.volume.pointer inode' k) i ∧ s.volume.bit .block i = false
  apart : ∀ k k', k ≤ 140 → k' ≤ 140 → fresh k → fresh k' →
    s'.volume.pointer inode' k = s'.volume.pointer inode' k' → k = k'
  blockBits : ∀ i, s'.volume.bit .block i = true ↔ s.volume.bit .block i = true ∨
    ∃ k, k ≤ 140 ∧ fresh k ∧ (s'.volume.pointer inode' k).toNat = s.part.sb.dataStartLba.toNat + i

theorem Extended.refl (s : Fs) (inode : Inode) {fresh : Nat → Prop} (none : ∀ k, ¬ fresh k) :
    Extended s s inode inode fresh where
  geometry := rfl
  kept _ _ _ := rfl
  empty k _ new := absurd new (none k)
  free k _ new := absurd new (none k)
  apart k _ _ _ new := absurd new (none k)
  blockBits i := by grind

theorem Extended.of_indices {s' : Fs} {fresh : Nat → Prop} (index : Nat → Nat)
    (layout : Layout s.part) (geometry : s'.part.geometry = s.part.geometry)
    (kept : ∀ k, k ≤ 140 → ¬ fresh k → s'.volume.pointer inode' k = s.volume.pointer inode k)
    (empty : ∀ k, k ≤ 140 → fresh k → s.volume.pointer inode k = 0)
    (given : ∀ k, k ≤ 140 → fresh k → s'.volume.pointer inode' k = s.lbaOf (index k))
    (inside : ∀ k, k ≤ 140 → fresh k → index k < s.part.bitCount .block)
    (free : ∀ k, k ≤ 140 → fresh k → s.volume.bit .block (index k) = false)
    (apart : ∀ k k', k ≤ 140 → k' ≤ 140 → fresh k → fresh k' → index k = index k' → k = k')
    (bits : ∀ i, s'.volume.bit .block i = true ↔ s.volume.bit .block i = true ∨ ∃ k, k ≤ 140 ∧ fresh k ∧ index k = i) :
    Extended s s' inode inode' fresh := by
  have number (k : Nat) (hk : k ≤ 140) (new : fresh k) :
      (s'.volume.pointer inode' k).toNat = s.part.sb.dataStartLba.toNat + index k := by
    rw [given k hk new, toNat_lbaOf layout (inside k hk new)]
  refine ⟨geometry, kept, empty, fun k hk new => ⟨index k, ⟨inside k hk new, number k hk new⟩, free k hk new⟩, ?_, ?_⟩
  · grind
  grind

namespace Extended

variable {s s' : Fs} {inode inode' : Inode} {fresh : Nat → Prop} (ext : Extended s s' inode inode' fresh)
include ext

theorem sb : s'.part.sb = s.part.sb := congrArg (·.2.2.1) ext.geometry

theorem pointer_ne_zero (layout : Layout s.part) (hk : k ≤ 140) (new : fresh k) :
    s'.volume.pointer inode' k ≠ 0 := by
  obtain ⟨i, ⟨_, sum⟩, -⟩ := ext.free k hk new
  grind [layout.dataStart]

theorem not_fresh (owns : s.Owns inode) {k' : Nat} (hk : k ≤ 140) (hk' : k' ≤ 140) (old : ¬ fresh k) (new : fresh k')
    (some : s'.volume.pointer inode' k ≠ 0) : s'.volume.pointer inode' k ≠ s'.volume.pointer inode' k' := by
  intro same
  rw [ext.kept k hk old] at some
  obtain ⟨i, place, used⟩ := owns.used k hk some
  obtain ⟨j, place', free⟩ := ext.free k' hk' new
  rw [← ext.kept k hk old, same] at place
  have index : i = j := by
    have first := place.2
    have second := place'.2
    omega
  rw [index, free] at used
  cases used

theorem owns (owns : s.Owns inode) : s'.Owns inode' where
  used k hk some := by
    by_cases new : fresh k
    · obtain ⟨i, place, -⟩ := ext.free k hk new
      exact ⟨i, BlockNo.congr ext.geometry place, (ext.blockBits i).mpr (.inr ⟨k, hk, new, place.2⟩)⟩
    grind [ext.kept, owns.used, BlockNo.congr, ext.geometry, ext.blockBits]
  apart k k' hk hk' some same := by
    by_cases new : fresh k
    · grind [ext.apart, ext.not_fresh]
    grind [ext.not_fresh, ext.kept, owns.apart]

/-- The bits that are set are those of the sectors that the inode did not reach before; they were clear. -/
theorem newly (layout : Layout s.part) (owns : s.Owns inode) (i : Nat) :
    (s'.volume.bit .block i = true ∧ s.volume.bit .block i = false ↔
      s'.volume.Reaches inode' (s.part.sb.dataStartLba.toNat + i) ∧
        ¬ s.volume.Reaches inode (s.part.sb.dataStartLba.toNat + i)) ∧
    (s.volume.bit .block i = true → s'.volume.bit .block i = true) := by
  refine ⟨⟨?_, ?_⟩, fun used => (ext.blockBits i).mpr (.inl used)⟩
  · rintro ⟨now, before⟩
    rcases (ext.blockBits i).mp now with used | ⟨k, hk, new, sum⟩
    · rw [before] at used
      cases used
    · refine ⟨⟨k, hk, ext.pointer_ne_zero layout hk new, sum⟩, ?_⟩
      rintro ⟨k', hk', some, sum'⟩
      obtain ⟨j, place, used⟩ := owns.used k' hk' some
      have index : j = i := by
        have := place.2
        omega
      rw [index, before] at used
      cases used
  · rintro ⟨⟨k, hk, some, sum⟩, missing⟩
    have new : fresh k := by
      by_contra old
      rw [ext.kept k hk old] at some sum
      exact missing ⟨k, hk, some, sum⟩
    obtain ⟨j, place, free⟩ := ext.free k hk new
    have index : j = i := by
      have := place.2
      omega
    subst index
    exact ⟨(ext.blockBits j).mpr (.inr ⟨k, hk, new, sum⟩), free⟩

theorem congr {s'' : Fs} {inode'' : Inode} (geometry : s''.part.geometry = s'.part.geometry)
    (bits : s''.volume.bit .block = s'.volume.bit .block)
    (pointer : ∀ k, s''.volume.pointer inode'' k = s'.volume.pointer inode' k) :
    Extended s s'' inode inode'' fresh where
  geometry := geometry.trans ext.geometry
  kept k hk old := by rw [pointer, ext.kept k hk old]
  empty := ext.empty
  free k hk new := by
    rw [pointer]
    exact ext.free k hk new
  apart k k' hk hk' new new' same := by
    rw [pointer, pointer] at same
    exact ext.apart k k' hk hk' new new' same
  blockBits i := by
    simp only [bits, pointer]
    exact ext.blockBits i

theorem trans (layout : Layout s.part) {s'' : Fs} {inode'' : Inode} {fresh' : Nat → Prop}
    (next : Extended s' s'' inode' inode'' fresh') {either : Nat → Prop} (both : ∀ k, either k ↔ fresh k ∨ fresh' k) :
    Extended s s'' inode inode'' either where
  geometry := next.geometry.trans ext.geometry
  kept k hk old := by
    rw [both, not_or] at old
    rw [next.kept k hk old.2, ext.kept k hk old.1]
  empty k hk new := by
    rcases (both k).mp new with first | second
    · exact ext.empty k hk first
    · have zero := next.empty k hk second
      grind [ext.pointer_ne_zero, ext.kept]
  free k hk new := by
    by_cases second : fresh' k
    · grind [next.free, BlockNo.congr, ext.geometry, ext.blockBits]
    · rw [next.kept k hk second]
      exact ext.free k hk (((both k).mp new).resolve_right second)
  apart k k' hk hk' new new' same := by
    -- A block of the first extension is in use when the second one takes its blocks.
    have mixed {k k' : Nat} (hk : k ≤ 140) (hk' : k' ≤ 140) (first : fresh k) (later : ¬ fresh' k)
        (second : fresh' k') :
        s''.volume.pointer inode'' k ≠ s''.volume.pointer inode'' k' := by
      intro same
      rw [next.kept k hk later] at same
      obtain ⟨i, place, -⟩ := ext.free k hk first
      obtain ⟨j, place', free⟩ := next.free k' hk' second
      have index : i = j := by
        have sum := (BlockNo.congr ext.geometry place).2
        have sum' := place'.2
        rw [same] at sum
        omega
      have used := (ext.blockBits i).mpr (.inr ⟨k, hk, first, place.2⟩)
      rw [index, free] at used
      cases used
    by_cases second : fresh' k
    · grind [next.apart]
    grind [next.kept, ext.apart]
  blockBits i := by grind [next.blockBits, ext.blockBits, ext.sb, ext.pointer_ne_zero, next.empty, next.kept]

theorem reaches (layout : Layout s.part) (lba : Nat) : s'.volume.Reaches inode' lba ↔
    s.volume.Reaches inode lba ∨ ∃ k, k ≤ 140 ∧ fresh k ∧ (s'.volume.pointer inode' k).toNat = lba := by
  constructor
  · rintro ⟨k, hk, some, number⟩
    by_cases new : fresh k
    · exact .inr ⟨k, hk, new, number⟩
    · rw [ext.kept k hk new] at some number
      exact .inl ⟨k, hk, some, number⟩
  · rintro (⟨k, hk, some, number⟩ | ⟨k, hk, new, number⟩)
    · have old : ¬ fresh k := fun new => some (ext.empty k hk new)
      refine ⟨k, hk, ?_, ?_⟩ <;> rw [ext.kept k hk old]
      · exact some
      · exact number
    · exact ⟨k, hk, ext.pointer_ne_zero layout hk new, number⟩

theorem free_card {a b : Nat} (two : ∀ k, fresh k ↔ k = a ∨ k = b) : s.free.card ≤ s'.free.card + 2 := by
  have subset : (s.free.erase ((s'.volume.pointer inode' a).toNat - s.part.sb.dataStartLba.toNat)).erase
      ((s'.volume.pointer inode' b).toNat - s.part.sb.dataStartLba.toNat) ⊆ s'.free := by
        grind [mem_free, bitCount_congr, ext.geometry, ext.sb, ext.blockBits]
  have less := Finset.card_le_card subset
  grind [Finset.pred_card_le_card_erase]

end Extended

end LaiMiniOs
