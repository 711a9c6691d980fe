import LaiMiniOs.Fs.Ownership

/-! `inode_release` gives back exactly the blocks that an inode reaches, and the inode. -/

set_option autoImplicit false

namespace LaiMiniOs
open Foundation Prog Function

variable {s t : Fs} {inode : Inode} {gone : Nat → Prop}

structure Freed (s t : Fs) (gone : Nat → Prop) : Prop where
  kernel : t.toKernel = s.toKernel
  geometry : t.part.geometry = s.part.geometry
  record : t.volume.record = s.volume.record
  block : t.volume.block = s.volume.block
  inodeBits : t.volume.bit .inode = s.volume.bit .inode
  blockBits : ∀ i, t.volume.bit .block i = true ↔ s.volume.bit .block i = true ∧ ¬ gone i
  sync : s.volume.KeepsSync t.volume

theorem Freed.refl (s : Fs) : Freed s s fun _ => False where
  kernel := rfl
  geometry := rfl
  record := rfl
  block := rfl
  inodeBits := rfl
  blockBits i := by simp
  sync := .refl _

theorem Freed.congr {gone' : Nat → Prop} (freed : Freed s t gone) (same : ∀ i, gone' i ↔ gone i) :
    Freed s t gone' :=
  { freed with blockBits := fun i => by rw [freed.blockBits, same] }

theorem Freed.release (freed : Freed s t gone) (layout : Layout s.part) {lba : Word}
    {i : Nat} (away : 0 < i) (number : s.BlockNo lba i) :
    ∃ t', releaseBlock lba t = .ok ((), t') ∧ Freed s t' fun j => gone j ∨ j = i := by
  have layout' := layout.congr freed.geometry
  have number' := BlockNo.congr freed.geometry number
  have volume := volume_mark layout' number'.1 false
  refine ⟨_, releaseBlock_eq layout' away number', ?_⟩
  exact {
    kernel := freed.kernel
    geometry := (geometry_mark t .block i false).trans freed.geometry
    record := by rw [volume, Volume.record_mark, freed.record]
    block := by rw [volume, Volume.block_mark, freed.block]
    inodeBits := by rw [volume, Volume.bit_mark_other _ _ _ _ (by decide), freed.inodeBits]
    blockBits := by grind [Volume.bit_mark, freed.blockBits]
    sync := by
      rw [volume]
      exact freed.sync.trans (Volume.keepsSync_mark _ _ _ _) }

theorem releaseLoop_eq (freed : Freed s t gone) (layout : Layout s.part)
    {blocks : Nat → Word} {n : Nat} (inData : ∀ b, b < n → blocks b ≠ 0 → ∃ i, 0 < i ∧ s.BlockNo (blocks b) i) :
    ∃ t', Prog.forUpTo (fun b => Prog.when (blocks b ≠ 0) (releaseBlock (blocks b))) n t = .ok ((), t') ∧
      Freed s t' fun i => gone i ∨
        ∃ b, b < n ∧ blocks b ≠ 0 ∧ (blocks b).toNat = s.part.sb.dataStartLba.toNat + i := by
  apply forUpTo_total (I := fun m t' => Freed s t' fun i => gone i ∨
    ∃ b, b < m ∧ blocks b ≠ 0 ∧ (blocks b).toNat = s.part.sb.dataStartLba.toNat + i)
  · exact freed.congr fun i => by simp
  · intro m t' inside before
    by_cases none : blocks m = 0
    · refine ⟨t', ?_, before.congr fun i => or_congr_right ?_⟩
      · exact run_when_of_not (not_not.mpr none) _ _
      · -- Nothing changes at a position without a block.
        constructor
        · rintro ⟨b, below, some, sum⟩
          have apart : b ≠ m := fun same => some (same ▸ none)
          exact ⟨b, by omega, some, sum⟩
        · rintro ⟨b, below, some, sum⟩
          exact ⟨b, by omega, some, sum⟩
    · obtain ⟨i, away, number⟩ := inData m inside none
      obtain ⟨t'', run, after⟩ := before.release layout away number
      refine ⟨t'', ?_, after.congr fun j => ?_⟩
      · rw [run_when_of none, run]
      · constructor
        · rintro (earlier | ⟨b, below, some, sum⟩)
          · exact .inl (.inl earlier)
          · by_cases here : b = m
            · subst here
              have place := number.2
              exact .inr (by omega)
            · exact .inl (.inr ⟨b, by omega, some, sum⟩)
        · rintro ((earlier | ⟨b, below, some, sum⟩) | rfl)
          · exact .inl earlier
          · exact .inr ⟨b, by omega, some, sum⟩
          · exact .inr ⟨m, by omega, none, number.2⟩

structure Released (s s' : Fs) (n : Nat) (inode : Inode) : Prop where
  kernel : s.toKernel.Extends s'.toKernel
  geometry : s'.part.geometry = s.part.geometry
  record : s'.volume.record = update s.volume.record n Inode.blank
  block : s'.volume.block = s.volume.block
  inodeBits : s'.volume.bit .inode = update (s.volume.bit .inode) n false
  blockBits : ∀ i, s'.volume.bit .block i = true ↔
    s.volume.bit .block i = true ∧ ¬ s.volume.Reaches inode (s.part.sb.dataStartLba.toNat + i)
  sync : s.volume.KeepsSync s'.volume

theorem reaches_iff (v : Volume) (inode : Inode) (lba : Nat) :
    v.Reaches inode lba ↔ (inode.sector 12 ≠ 0 ∧ (inode.sector 12).toNat = lba) ∨
      ∃ b, b < (if inode.sector 12 ≠ 0 then 140 else 12) ∧ allBlocks inode (v.table inode) b ≠ 0 ∧
        (allBlocks inode (v.table inode) b).toNat = lba := by
  constructor
  · rintro ⟨k, hk, some, sum⟩
    by_cases last : k = 140
    · subst last
      exact .inl ⟨some, sum⟩
    · have data : v.pointer inode k = allBlocks inode (v.table inode) k := if_neg last
      grind [Volume.pointer_of_no_table]
  · rintro (⟨some, sum⟩ | ⟨b, below, some, sum⟩)
    · exact ⟨140, by omega, some, sum⟩
    · have bound : b < 140 := by split at below <;> omega
      have data : v.pointer inode b = allBlocks inode (v.table inode) b := if_neg (by omega)
      exact ⟨b, by omega, by rw [data]; exact some, by rw [data]; exact sum⟩

theorem releaseBlocks_eq (layout : Layout s.part) (inData : s.InData inode) :
    ∃ t, releaseBlocks inode (s.volume.table inode) s = .ok ((), t) ∧
      Freed s t fun i => s.volume.Reaches inode (s.part.sb.dataStartLba.toNat + i) := by
  have first : ∃ t, Prog.when (inode.sector 12 ≠ 0) (releaseBlock (inode.sector 12)) s = .ok ((), t) ∧
      Freed s t fun i => inode.sector 12 ≠ 0 ∧ (inode.sector 12).toNat = s.part.sb.dataStartLba.toNat + i := by
    by_cases none : inode.sector 12 = 0
    · exact ⟨s, run_when_of_not (not_not.mpr none) _ _, (Freed.refl s).congr fun i => by simp [none]⟩
    · obtain ⟨i, away, number⟩ := inData 140 (Nat.le_refl _) none
      have block : s.BlockNo (inode.sector 12) i := number
      obtain ⟨t, run, freed⟩ := (Freed.refl s).release layout away block
      refine ⟨t, by rw [run_when_of none, run], freed.congr fun j => ?_⟩
      have sum := block.2
      simp only [ne_eq, none, not_false_eq_true, true_and, false_or]
      omega
  obtain ⟨t, run, freed⟩ := first
  have data (b : Nat) (below : b < if inode.sector 12 ≠ 0 then 140 else 12)
      (some : allBlocks inode (s.volume.table inode) b ≠ 0) :
      ∃ i, 0 < i ∧ s.BlockNo (allBlocks inode (s.volume.table inode) b) i := by
    have bound : b < 140 := by split at below <;> omega
    have position : s.volume.pointer inode b = allBlocks inode (s.volume.table inode) b := if_neg (by omega)
    have number := inData b (by omega)
    rw [position] at number
    exact number some
  obtain ⟨t', run', freed'⟩ := releaseLoop_eq freed layout data
  refine ⟨t', ?_, freed'.congr fun i => reaches_iff _ _ _⟩
  rw [releaseBlocks, bind_of_ok run]
  exact run'

theorem inodeRelease_eq (layout : Layout s.part) (sound : s.toKernel.Sound) {n : Word} (small : n.toNat < 4096)
    (seen : s.toKernel.seen n (s.volume.record n.toNat) = inode) (number : inode.iNo = n)
    (inData : s.InData inode) (onDisk : (inode.sector 12).toNat ≤ maxLba) :
    ∃ s', inodeRelease n s = .ok ((), s') ∧ Released s s' n.toNat inode := by
  obtain ⟨cnts, heap⟩ := s.toKernel.heap_opened n (s.volume.record n.toNat)
  rw [seen] at heap
  generalize opens : s.toKernel.opened n (s.volume.record n.toNat) = handle at heap
  obtain ⟨p, k⟩ := handle
  have run₁ : inodeOpen n s = .ok (p, s.withKernel k) :=
    (inodeOpen_eq_ok layout).mpr ⟨fun _ => small, by rw [opens]⟩
  generalize held : ({ inode with iOpenCnts := cnts } : Inode) = open_ at heap
  have stored : (s.withKernel k).heap p = open_ := heap
  have sectors (j : Nat) : open_.sector j = inode.sector j := by rw [← held]; rfl
  have same (j : Nat) : s.volume.pointer open_ j = s.volume.pointer inode j :=
    Volume.pointer_congr sectors (fun _ => rfl) j
  have data : (s.withKernel k).InData open_ := by
    intro j hj some
    rw [volume_withKernel, same] at some ⊢
    exact inData j hj some
  have run₂ : readTable open_ (s.withKernel k) = .ok (s.volume.table open_, s.withKernel k) := by
    refine readTable_eq (fun some => ?_) (by rw [sectors]; exact onDisk)
    obtain ⟨i, -, -, sum⟩ := data 140 (Nat.le_refl _) some
    have position : (s.withKernel k).volume.pointer open_ 140 = open_.sector 12 := rfl
    rw [position] at sum
    omega
  obtain ⟨t, run₃, freed⟩ := releaseBlocks_eq (s := s.withKernel k) layout data
  rw [volume_withKernel] at run₃
  have layout₃ : Layout t.part := layout.congr freed.geometry
  have bits : n.toNat < t.part.bitCount .inode := by
    have bytes := layout₃.inodeBytes
    simp only [Partition.bitCount, Partition.bitmap]
    omega
  have layout₄ : Layout (t.mark .inode n.toNat false).part := layout₃.congr (geometry_mark t .inode _ false)
  have run₅ := inodeDelete_eq layout₄ small
  have volume₅ := volume_putRecord layout₄ small Inode.blank
  rw [image_blank, volume_mark layout₃ bits] at volume₅
  generalize final : putRecord (t.mark .inode n.toNat false) n.toNat Memory.zero = s₅ at run₅ volume₅
  have kernel₅ : s₅.toKernel = k := by
    rw [← final]
    exact freed.kernel
  have geometry₅ : s₅.part.geometry = s.part.geometry := by
    rw [← final]
    exact (geometry_mark t .inode _ false).trans freed.geometry
  refine ⟨s₅.withKernel (k.closed p), ?_, ?_⟩
  · unfold inodeRelease
    rw [bind_of_ok run₁, get_bind]
    simp only [stored]
    rw [require_bind (by rw [← held]; exact number), bind_of_ok run₂,
      bind_of_ok run₃, bind_of_ok (bitmapSet_eq_ok.mpr ⟨bits, rfl⟩),
      bind_of_ok ((bitmapSync_eq_ok (layout₃.congr (geometry_setBit t .inode _ false))).mpr
        ⟨by rw [bitCount_congr (geometry_setBit t .inode _ false)]; exact bits, rfl⟩)]
    refine (bind_of_ok run₅).trans ?_
    rw [inodeClose_eq, kernel₅]
  · have after := s.toKernel.closed_opened sound n (s.volume.record n.toNat)
    rw [opens] at after
    have other : (t.volume.mark .inode n.toNat false).bit .block = t.volume.bit .block :=
      Volume.bit_mark_other _ _ _ _ (by decide)
    exact {
      kernel := after
      geometry := geometry₅
      record := by grind [volume_withKernel, Volume.putRecord, Volume.record_mark, freed.record]
      block := by
        rw [volume_withKernel, volume₅]
        exact freed.block
      inodeBits := by
        rw [volume_withKernel, volume₅]
        funext j
        simp only [Volume.putRecord, Volume.bit_mark, update_apply, true_and, freed.inodeBits,
          volume_withKernel]
      blockBits := by
        intro i
        rw [volume_withKernel, volume₅]
        simp only [Volume.putRecord, other, freed.blockBits i, Volume.Reaches, volume_withKernel, same, part_withKernel]
      sync := by
        rw [volume_withKernel, volume₅]
        exact (freed.sync.trans (Volume.keepsSync_mark _ _ _ _)).trans (.of_eq rfl rfl) }

theorem releaseBlock_away (layout : Layout s.part) {lba : Word} (run : releaseBlock lba s = .ok ((), t)) :
    0 < (lba - s.part.sb.dataStartLba).toNat ∧ t.part.geometry = s.part.geometry := by
  unfold releaseBlock at run
  rw [get_bind] at run
  obtain ⟨away, run⟩ := require_bind_eq_ok.mp run
  obtain ⟨_, _, clear, run⟩ := bind_eq_ok.mp run
  obtain ⟨-, here⟩ := bitmapSet_eq_ok.mp clear
  cases here
  have geometry := geometry_setBit s .block (lba - s.part.sb.dataStartLba).toNat false
  obtain ⟨-, here⟩ := (bitmapSync_eq_ok (layout.congr geometry)).mp run
  cases here
  exact ⟨away, geometry⟩

theorem releaseBlocks_away (layout : Layout s.part)
    (run : releaseBlocks inode (s.volume.table inode) s = .ok ((), t)) :
    ¬ s.volume.Reaches inode s.part.sb.dataStartLba.toNat := by
  obtain ⟨_, t₁, first, loop⟩ := bind_eq_ok.mp run
  have start : (inode.sector 12 ≠ 0 → 0 < (inode.sector 12 - s.part.sb.dataStartLba).toNat) ∧
      t₁.part.geometry = s.part.geometry := by grind [run_when_of_not, run_when_of, releaseBlock_away]
  have rest := forUpTo_partial (I := fun m u => u.part.geometry = s.part.geometry ∧ ∀ b, b < m →
      allBlocks inode (s.volume.table inode) b ≠ 0 →
        0 < (allBlocks inode (s.volume.table inode) b - s.part.sb.dataStartLba).toNat)
    ⟨start.2, fun b below => absurd below (Nat.not_lt_zero b)⟩
    (fun m u u' _ before body => by
      obtain ⟨geometry, away⟩ := before
      have sb : u.part.sb = s.part.sb := congrArg (·.2.2.1) geometry
      by_cases none : allBlocks inode (s.volume.table inode) m = 0
      · grind [run_when_of_not]
      · rw [run_when_of none] at body
        obtain ⟨here, geometry'⟩ := releaseBlock_away (layout.congr geometry) body
        grind)
    loop
  grind [BitVec.eq_of_toNat_eq, reaches_iff]

theorem inodeRelease_requires {s' : Fs} (layout : Layout s.part) {n : Word}
    (seen : s.toKernel.seen n (s.volume.record n.toNat) = inode) (owns : s.Owns inode)
    (run : inodeRelease n s = .ok ((), s')) :
    n.toNat < 4096 ∧ inode.iNo = n ∧ (inode.sector 12).toNat ≤ maxLba ∧
      ¬ s.volume.Reaches inode s.part.sb.dataStartLba.toNat := by
  obtain ⟨p, t, opens, run⟩ := bind_eq_ok.mp run
  obtain ⟨-, here⟩ := (inodeOpen_eq_ok layout).mp opens
  obtain ⟨cnts, heap⟩ := s.toKernel.heap_opened n (s.volume.record n.toNat)
  rw [seen] at heap
  obtain ⟨rfl, rfl⟩ := Prod.mk.inj here
  generalize s.toKernel.opened n (s.volume.record n.toNat) = handle at heap run
  generalize held : ({ inode with iOpenCnts := cnts } : Inode) = open_ at heap
  have stored : (s.withKernel handle.2).heap handle.1 = open_ := heap
  have sectors (j : Nat) : open_.sector j = inode.sector j := by rw [← held]; rfl
  have same (j : Nat) : s.volume.pointer open_ j = s.volume.pointer inode j :=
    Volume.pointer_congr sectors (fun _ => rfl) j
  rw [get_bind] at run
  simp only [stored] at run
  obtain ⟨number, run⟩ := require_bind_eq_ok.mp run
  obtain ⟨table, t, read, run⟩ := bind_eq_ok.mp run
  -- The table was read, so it is on the disk when there is one.
  have onDisk : (inode.sector 12).toNat ≤ maxLba := by grind [readTable, addressable_one, ideRead_eq_ok]
  have low : open_.sector 12 ≠ 0 → s.part.sb.dataStartLba.toNat ≤ (open_.sector 12).toNat := by
    intro some
    rw [sectors] at some ⊢
    obtain ⟨i, ⟨-, sum⟩, -⟩ := owns.used 140 (Nat.le_refl _) some
    rw [Volume.pointer_table] at sum
    omega
  have read' := readTable_eq (s := s.withKernel handle.2) low (by rw [sectors]; exact onDisk)
  rw [read', Except.ok.injEq, Prod.mk.injEq] at read
  obtain ⟨rfl, rfl⟩ := read
  obtain ⟨_, t, release, run⟩ := bind_eq_ok.mp run
  have away := releaseBlocks_away (s := s.withKernel handle.2) layout release
  have notRoot : ¬ s.volume.Reaches inode s.part.sb.dataStartLba.toNat := by
    simpa only [Volume.Reaches, volume_withKernel, part_withKernel, same] using away
  have data : (s.withKernel handle.2).InData open_ := by
    intro j hj some
    rw [volume_withKernel, same] at some ⊢
    exact owns.inData notRoot j hj some
  obtain ⟨t', release', freed⟩ := releaseBlocks_eq (s := s.withKernel handle.2) layout data
  rw [release', Except.ok.injEq, Prod.mk.injEq] at release
  obtain ⟨-, rfl⟩ := release
  obtain ⟨_, _, clear, -⟩ := bind_eq_ok.mp run
  have inside := (bitmapSet_eq_ok.mp clear).1
  have bytes := (layout.congr freed.geometry).inodeBytes
  grind [Partition.bitCount, Partition.bitmap]

end LaiMiniOs
