import LaiMiniOs.Fs.BufferBounds

/-! The limits of `file_write` and `file_read` in 32 bits.

Both functions add two 32-bit numbers before they compare. While the sum does not wrap, a write is
refused or stays below the largest size, and a read stays in the file. A sum that wraps passes both
comparisons, and the loops behind them run for the whole count.
-/

set_option autoImplicit false

namespace LaiMiniOs
open Foundation Prog

variable {fdIdx p pos : Nat} {count : Word}

/-- The write is refused and changes nothing, or it fits and takes the bytes of the buffer, each once. -/
def WriteGuarded (s : Fs) (fdIdx p : Nat) (src : Memory) (count : Word) : Prop :=
  fileWrite fdIdx src count s = .ok (-1, s) ∨
    ((s.heap p).iSize.toNat + count.toNat ≤ 71680 ∧
      (∃ s', fileWrite fdIdx src count s = .ok ((count.toNat : Int), s')) ∧
      userBytes ((fileWriteLogged fdIdx src count).events s) = List.range count.toNat)

/-- The read stores no more than the bytes between the position and the end of the file. -/
def ReadGuarded (s : Fs) (fdIdx p : Nat) (count : Word) : Prop :=
  (userBytes ((fileReadLogged fdIdx count).events s)).length ≤ (s.heap p).iSize.toNat - (s.fileTable fdIdx).fdPos.toNat

section
variable {s : Fs}

theorem Writes.below {src : Memory} {s₁ s₂ s₃ s' : Fs} {blocks : Nat → Word}
    (writes : Writes fdIdx p src count s s₁ blocks s₂ s₃ s') (layout : Layout s.part) :
    (s.heap p).iSize.toNat + count.toNat < 71680 := by
  have size : ((s₂.seekLast fdIdx p).heap p).iSize = (s.heap p).iSize :=
    (writes.collects.iSize (layout.congr writes.first.geometry)).trans writes.first.iSize
  have bound := writeLoop_bound writes.moves
  have small := writes.small
  have limit := (s.heap p).iSize.isLt
  rw [size] at bound
  rw [BitVec.toNat_add] at small
  omega

theorem writeGuarded_iff {src : Memory} (layout : Layout s.part)
    (held : (s.fileTable fdIdx).fdInode = some p) :
    WriteGuarded s fdIdx p src count ↔ 71680 < ((s.heap p).iSize + count).toNat ∨
      ((s.heap p).iSize.toNat + count.toNat < 71680 ∧ ∃ r, fileWrite fdIdx src count s = .ok r) := by
  constructor
  · rintro (refused | ⟨-, ⟨s', run⟩, -⟩)
    · grind [fileWrite_returns]
    · obtain ⟨_, _, _, _, writes⟩ := (fileWrite_eq_ok layout held).mp run
      exact .inr ⟨writes.below layout, _, run⟩
  · rintro (limit | ⟨below, r, run⟩)
    · exact .inl ((fileWrite_returns layout held).mpr (.inl ⟨limit, rfl⟩))
    · rcases (fileWrite_returns layout held).mp run with ⟨-, rfl⟩ | ⟨_, _, _, _, s', rfl, -⟩
      · exact .inl run
      · obtain ⟨log, part, events, -, taken⟩ := fileWriteLogged_events layout held run
        refine .inr ⟨by omega, ⟨s', run⟩, ?_⟩
        rw [events, userBytes_append, taken, userBytes_of_other (by simp [recordStores]), List.append_nil]

theorem readLoopLogged_stores (fdIdx : Nat) (blocks : Nat → Word) (size from_ : Nat) (t : Traced Fs Access) :
    (userBytes ((readLoopLogged fdIdx blocks size from_).last t).log).length ≤ (userBytes t.log).length +
    (size - from_) := by
  generalize left : size - from_ = n
  induction n using Nat.strongRecOn generalizing from_ t with
  | ind n ih =>
    unfold readLoopLogged
    by_cases more : from_ < size
    · rw [if_pos more]
      refine last_quiet_bind (P := fun log => (userBytes log).length ≤ _) (by omega) fun s t₁ _ log₁ => ?_
      refine last_quiet_bind (P := fun log => (userBytes log).length ≤ _) (by rw [log₁]; omega) fun _ t₂ _ log₂ => ?_
      refine last_quiet_bind (P := fun log => (userBytes log).length ≤ _)
        (by rw [log₂, log₁]; omega) fun buf t₃ _ log₃ => ?_
      generalize chunk : min (size - from_) (512 - (s.fileTable fdIdx).fdPos.toNat % 512) = c
      -- After the note of the chunk there is less left.
      have noted : (userBytes (t₃.log ++ [⟨.user, from_, c⟩])).length = (userBytes t.log).length + c := by
        grind [userBytes]
      rw [last_note_bind]
      refine last_quiet_bind (P := fun log => (userBytes log).length ≤ _) (by rw [noted]; omega) fun _ t₄ _ log₄ => ?_
      have rest := ih (n - c) (by omega) (from_ + c) t₄ (by omega)
      rw [log₄, noted] at rest
      rw [last_bind_pure]
      omega
    · rw [if_neg more]
      exact Nat.le_add_right _ _

theorem readFromLogged_stores (fdIdx : Nat) (inode : Inode) (fdPos size : Word) (s : Fs) :
    (userBytes ((readFromLogged fdIdx inode fdPos size).events s)).length ≤ size.toNat := by
  refine last_quiet_bind (P := fun log => (userBytes log).length ≤ _) (Nat.zero_le _) fun _ t₁ _ log₁ => ?_
  refine last_quiet_bind (P := fun log => (userBytes log).length ≤ _)
    (by rw [log₁]; exact Nat.zero_le _) fun blocks t₂ _ log₂ => ?_
  have loop := readLoopLogged_stores fdIdx blocks size.toNat 0 t₂
  have none : (userBytes t₂.log).length = 0 := by
    rw [log₂, log₁]
    rfl
  rw [none, Nat.zero_add, Nat.sub_zero] at loop
  rw [last_bind_pure]
  exact loop

theorem fileReadLogged_events (held : (s.fileTable fdIdx).fdInode = some p) :
    (fileReadLogged fdIdx count).events s =
      if (s.heap p).iSize.toNat < ((s.fileTable fdIdx).fdPos + count).toNat then
        if (s.heap p).iSize - (s.fileTable fdIdx).fdPos = 0 then []
        else (readFromLogged fdIdx (s.heap p) (s.fileTable fdIdx).fdPos
          ((s.heap p).iSize - (s.fileTable fdIdx).fdPos)).events s
      else (readFromLogged fdIdx (s.heap p) (s.fileTable fdIdx).fdPos count).events s := by
  have look (t : Traced Fs Access) : (quiet get : LogM Fs) t = .ok (t.state, t) := rfl
  unfold events fileReadLogged
  rw [last_bind_of_ok (look _)]
  simp only [held]
  rw [last_bind_of_ok (look _), last_bind_of_ok (look _)]
  split
  · split <;> rfl
  · rfl

theorem readGuarded_of_sum (held : (s.fileTable fdIdx).fdInode = some p)
    (inside : (s.fileTable fdIdx).fdPos.toNat ≤ (s.heap p).iSize.toNat)
    (sum : (s.fileTable fdIdx).fdPos.toNat + count.toNat < 2 ^ 32) : ReadGuarded s fdIdx p count := by
  have left : ((s.heap p).iSize - (s.fileTable fdIdx).fdPos).toNat = (s.heap p).iSize.toNat -
      (s.fileTable fdIdx).fdPos.toNat := by
    rw [BitVec.toNat_sub]
    omega
  unfold ReadGuarded
  rw [fileReadLogged_events held, BitVec.toNat_add, Nat.mod_eq_of_lt sum]
  split
  · split
    · exact Nat.zero_le _
    · rw [← left]
      exact readFromLogged_stores _ _ _ _ _
  · exact Nat.le_trans (readFromLogged_stores _ _ _ _ _) (by omega)

theorem readLoopLogged_keeps (fdIdx : Nat) (blocks : Nat → Word) (size from_ : Nat) :
    Keeps (Adds fun e : Access => e.buffer = .user) (readLoopLogged fdIdx blocks size from_) := by
  generalize left : size - from_ = n
  induction n using Nat.strongRecOn generalizing from_ with
  | ind n ih =>
    unfold readLoopLogged
    by_cases more : from_ < size
    · rw [if_pos more]
      refine .bind (keeps_quiet _) fun s => .bind (keeps_quiet _) fun _ => .bind (keeps_quiet _) fun _ => ?_
      refine .bind (keeps_note rfl) fun _ => .bind (keeps_quiet _) fun _ => .bind ?_ fun _ => .ret _
      exact ih _ (by omega) _ rfl
    · rw [if_neg more]
      exact .ret _

theorem readLoopLogged_overruns {size from_ : Nat} {blocks : Nat → Word} {t : Traced Fs Access}
    (place : (t.state.fileTable fdIdx).fdPos.toNat = pos) (onDisk : ∀ k, k < 140 → (blocks k).toNat ≤ maxLba)
    (long : 140 * 512 - pos ≤ size - from_) :
    (userBytes t.log).length + (140 * 512 - pos) ≤
    (userBytes ((readLoopLogged fdIdx blocks size from_).last t).log).length := by
  generalize left : 140 * 512 - pos = n at long
  induction n using Nat.strongRecOn generalizing from_ pos t with
  | ind n ih =>
    by_cases more : pos < 140 * 512
    · have inside : (t.state.fileTable fdIdx).fdPos.toNat / 512 < 140 := by omega
      have read := ideRead_eq (s := t.state) (addressable_one.mpr (onDisk _ inside))
      have look : (quiet get : LogM Fs) t = .ok (t.state, t) := rfl
      have ends := chunkSize_ends (z := pos) (n := size - from_) (by omega)
      have moved : ((t.state.seekBy fdIdx (chunkSize pos (size - from_))).fileTable fdIdx).fdPos.toNat =
          pos + chunkSize pos (size - from_) := fdPos_chunk place (by omega)
      unfold readLoopLogged
      rw [if_pos (by omega), last_bind_of_ok look, last_bind_of_ok (quiet_of_ok (run_require_of inside t.state)),
        last_bind_of_ok (quiet_of_ok read), last_note_bind, last_bind_of_ok (quiet_of_ok (run_modify _ _))]
      simp only [place]
      generalize chunk : chunkSize pos (size - from_) = c at moved ends
      rw [show min (size - from_) (512 - pos % 512) = c from chunk]
      have rest := ih (n - c) (by omega) (t := ⟨t.state.seekBy fdIdx c, t.log ++ [⟨.user, from_, c⟩]⟩) moved
        (by omega : 140 * 512 - (pos + c) = n - c) (by omega : n - c ≤ size - (from_ + c))
      have noted : (userBytes (t.log ++ [⟨.user, from_, c⟩])).length = (userBytes t.log).length + c := by
        rw [userBytes_append, List.length_append]
        simp [userBytes]
      rw [noted] at rest
      rw [last_bind_pure]
      exact Nat.le_trans (by omega) rest
    · obtain ⟨more, log, -⟩ := ((readLoopLogged_keeps fdIdx blocks size from_).within t).last Adds.refl Adds.trans
      rw [log, userBytes_append, List.length_append]
      omega

theorem readFromLogged_asserts (s : Fs) (fdIdx : Nat) (inode : Inode) {fdPos : Word} (size : Word)
    (beyond : 139 * 512 ≤ fdPos.toNat) : (readFromLogged fdIdx inode fdPos size).events s = [] := by
  refine last_quiet_bind (P := fun log => log = []) rfl fun _ t check _ => ?_
  have admitted := (require_eq_ok.mp check).1.1
  omega

theorem readFromLogged_overruns {has total : Nat} (reads : s.ReadsAt fdIdx p has total pos)
    (wraps : 2 ^ 32 ≤ pos + count.toNat) (admitted : pos < 139 * 512) :
    140 * 512 - pos ≤
      (userBytes ((readFromLogged fdIdx (s.heap p) (s.fileTable fdIdx).fdPos count).events s)).length := by
  have place := reads.place
  have sum : ((s.fileTable fdIdx).fdPos + count).toNat = pos + count.toNat - 2 ^ 32 := by
    rw [BitVec.toNat_add, place]
    omega
  have below := reads.ready.below_of_le reads.length reads.inside
  have last (high : 12 ≤ (pos + count.toNat - 2 ^ 32) / 512) : (pos + count.toNat - 2 ^ 32) / 512 < has :=
    Nat.lt_of_le_of_lt (by omega) (below (by omega))
  obtain ⟨blocks, collect, -, onDisk⟩ := collectForRead_eq reads.ready (pos / 512) last (by omega)
  have checked : (s.fileTable fdIdx).fdPos.toNat / 512 < 139 ∧
      ((s.fileTable fdIdx).fdPos + count).toNat / 512 < 139 := by
    rw [place, sum]
    omega
  have loop := readLoopLogged_overruns (t := ⟨s, []⟩) place onDisk (by omega : 140 * 512 - pos ≤ count.toNat - 0)
  unfold events readFromLogged
  rw [last_bind_of_ok (quiet_of_ok (run_require_of checked s))]
  simp only [place, sum]
  rw [last_bind_of_ok (quiet_of_ok collect)]
  have none : (userBytes ([] : List Access)).length = 0 := rfl
  rw [none, Nat.zero_add] at loop
  rw [last_bind_pure]
  exact loop

theorem readGuarded_iff {has total : Nat} (reads : s.ReadsAt fdIdx p has total pos)
    (small : total < 71680) : ReadGuarded s fdIdx p count ↔ pos + count.toNat < 2 ^ 32 ∨ 139 * 512 ≤ pos := by
  have length := reads.length
  have place := reads.place
  have inside := reads.inside
  constructor
  · intro guarded
    by_contra outside
    have wraps : 2 ^ 32 ≤ pos + count.toNat := by omega
    have bound := count.isLt
    have overrun := readFromLogged_overruns reads wraps (by omega)
    unfold ReadGuarded at guarded
    rw [fileReadLogged_events reads.held, BitVec.toNat_add, place, if_neg (by omega)] at guarded
    omega
  · rintro (sum | beyond)
    · exact readGuarded_of_sum reads.held (by omega) (by omega)
    · have nothing (size : Word) := readFromLogged_asserts s fdIdx (s.heap p) size
        (by rw [place]; exact beyond : 139 * 512 ≤ (s.fileTable fdIdx).fdPos.toNat)
      unfold ReadGuarded
      rw [fileReadLogged_events reads.held, nothing, nothing, ite_self, ite_self]
      exact Nat.zero_le _

/-- The guard of a write holds exactly when the sum is refused, or is below the limit without a wrap and the write
comes to its end, as it does with enough free blocks. The guard of a read holds when its sum does not wrap, and for
a file whose blocks are there not otherwise, up to the assertion on the position. That a write comes to its end
is said of its result; the stores of `inode_sync` stay in `io_buf` when the record is in one sector. -/
theorem sizes_guarded_iff {fdIdx p : Nat} {src : Memory} {count : Word} (layout : Layout s.part)
    (held : (s.fileTable fdIdx).fdInode = some p) (inside : (s.fileTable fdIdx).fdPos.toNat ≤ (s.heap p).iSize.toNat) :
    (WriteGuarded s fdIdx p src count ↔ 71680 < ((s.heap p).iSize + count).toNat ∨
      ((s.heap p).iSize.toNat + count.toNat < 71680 ∧ ∃ r, fileWrite fdIdx src count s = .ok r)) ∧
    (∀ has, s.FileReady (s.heap p) has → s.volume.bit .block 0 = true →
      blocksOf (((s.heap p).iSize.toNat + count.toNat) / 512 + 1) ≤ s.free.card + blocksOf has →
      (s.heap p).iSize.toNat + count.toNat < 71680 → ∃ r, fileWrite fdIdx src count s = .ok r) ∧
    ((s.fileTable fdIdx).fdPos.toNat + count.toNat < 2 ^ 32 → ReadGuarded s fdIdx p count) ∧
    ∀ has, s.FileReadable (s.heap p) has → (s.heap p).iSize.toNat < 71680 →
      (ReadGuarded s fdIdx p count ↔
        (s.fileTable fdIdx).fdPos.toNat + count.toNat < 2 ^ 32 ∨ 139 * 512 ≤ (s.fileTable fdIdx).fdPos.toNat) := by
  refine ⟨writeGuarded_iff layout held, ?_, readGuarded_of_sum held inside, ?_⟩
  · intro has ready root room below
    obtain ⟨s', run, -⟩ := fileWrite_of_room src count layout held ready root below room
    exact ⟨_, run⟩
  · intro has ready small
    exact readGuarded_iff ⟨held, ready, rfl, rfl, inside⟩ small

end

def wrappingFs : Fs := shortFileFs.seekBy 3 2

theorem readsAt_wrappingFs : wrappingFs.ReadsAt 3 0 1 3 2 := readsAt_shortFileFs.seekBy (by decide)

theorem layout_wrappingFs : Layout wrappingFs.part := newFile_newFileFs.layout

theorem sizes_guarded_beyond : WriteGuarded wrappingFs 3 0 (bufferOf [7]) 71681 ∧ ReadGuarded wrappingFs 3 0 71681 := by
  have reads := readsAt_wrappingFs
  obtain ⟨write, -, read, -⟩ :=
    @sizes_guarded_iff wrappingFs 3 0 (bufferOf [7]) 71681 layout_wrappingFs reads.held (by decide)
  exact ⟨write.mpr (.inl (by decide)), read (by decide)⟩

/-- A count of `2 ^ 32 - 1`: size and position plus count wrap to 2 and to 1, so the write is not refused and the
read is not cut. -/
theorem sizes_wrap : ¬ WriteGuarded wrappingFs 3 0 (bufferOf []) 0xffffffff ∧
    ¬ ReadGuarded wrappingFs 3 0 0xffffffff := by
  have reads := readsAt_wrappingFs
  refine ⟨fun guarded => ?_, fun guarded => ?_⟩
  · rcases (writeGuarded_iff layout_wrappingFs reads.held).mp guarded with limit | ⟨below, -⟩
    · exact absurd limit (by decide)
    · exact absurd below (by decide)
  · exact absurd ((readGuarded_iff reads (by decide)).mp guarded) (by decide)

end LaiMiniOs
