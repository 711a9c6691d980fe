import Mathlib.Data.List.Induction
import LaiMiniOs.Foundation.Memory

/-! The text screen: `put_char` and `cls_screen` of `kernel/print.S` against a terminal of 25 rows of 80 cells. -/

set_option autoImplicit false

namespace LaiMiniOs
open Foundation Function

/-- The bytes of the video segment, the cursor that the display controller holds, and the offsets stored
to, the last one first. An offset from `0x8000` on is past the limit of the segment. -/
structure Screen where
  text : Memory
  cursor : BitVec 16
  stores : List Nat

namespace Screen

def store (s : Screen) (offset : Nat) (b : Byte) : Screen := ⟨update s.text offset b, s.cursor, offset :: s.stores⟩

def blank (s : Screen) (offset : Nat) : Screen := (s.store offset 0x20).store (offset + 1) 0x07

def cls (s : Screen) (offset count : Nat) : Screen := count.fold (fun i _ t => t.blank (offset + 2 * i)) s

def movsd (s : Screen) (edi : Nat) : Screen :=
  (((s.store edi (s.text (edi + 160))).store (edi + 1) (s.text (edi + 161))).store (edi + 2)
    (s.text (edi + 162))).store (edi + 3) (s.text (edi + 163))

def setCursor (s : Screen) (bx : BitVec 16) : Screen := { s with cursor := bx }

def repMovsd (s : Screen) (ecx : Nat) : Screen := ecx.fold (fun i _ t => t.movsd (4 * i)) s

def rollScreen (s : Screen) : Screen := ((s.repMovsd 960).cls 3840 80).setCursor 1920

/-- `.is_line_feed`, which is also `.is_carriage_return`. The comparisons are signed. -/
def lineFeed (s : Screen) (bx : BitVec 16) : Screen :=
  let bx := bx - bx % 80 + 80
  if bx.slt 2000 then s.setCursor bx else s.rollScreen

/-- A byte and its attribute at `bx`, which is doubled for that and halved again. -/
def putCell (s : Screen) (bx : BitVec 16) (b : Byte) : Screen × BitVec 16 :=
  let bx := bx <<< 1
  let s := s.store bx.toNat b
  let bx := bx + 1
  (s.store bx.toNat 0x07, bx >>> 1)

def putChar (s : Screen) (cl : Byte) : Screen :=
  if cl = 0x0d ∨ cl = 0x0a then s.lineFeed s.cursor
  else if cl = 0x08 then
    let (s, bx) := s.putCell (s.cursor - 1) 0x20
    s.setCursor bx
  else
    let (s, bx) := s.putCell s.cursor cl
    let bx := bx + 1
    if bx.slt 2000 then s.setCursor bx else s.lineFeed bx

def clsScreen (s : Screen) : Screen := (s.cls 0 2000).setCursor 0

end Screen

/-- The reference: the characters of the cells, row by row, and the cursor. -/
structure Terminal where
  cells : Nat → Byte
  cursor : Nat

namespace Terminal

def blank : Terminal := ⟨fun _ => 0x20, 0⟩

def scroll (t : Terminal) : Terminal := ⟨fun i => if i < 1920 then t.cells (i + 80) else 0x20, 1920⟩

def moveTo (t : Terminal) (cursor : Nat) : Terminal := if cursor < 2000 then { t with cursor } else t.scroll

def put (t : Terminal) (b : Byte) : Terminal :=
  if b = 0x0d ∨ b = 0x0a then t.moveTo ((t.cursor / 80 + 1) * 80)
  else if b = 0x08 then ⟨update t.cells (t.cursor - 1) 0x20, t.cursor - 1⟩
  else ({ t with cells := update t.cells t.cursor b } : Terminal).moveTo (t.cursor + 1)

end Terminal

/-- The text memory is that of the terminal in light grey, and nothing outside it was stored to. -/
structure Screen.Paints (s : Screen) (cells : Nat → Byte) : Prop where
  text : ∀ i, i < 2000 → s.text (2 * i) = cells i ∧ s.text (2 * i + 1) = 0x07
  stores : ∀ offset ∈ s.stores, offset < 4000

structure Screen.Shows (s : Screen) (t : Terminal) : Prop where
  cursor : s.cursor.toNat = t.cursor
  inside : t.cursor < 2000
  paints : s.Paints t.cells

namespace Screen
variable {s : Screen} {t : Terminal} {cells : Nat → Byte} {bx : BitVec 16}

theorem cls_text (s : Screen) (offset count a : Nat) :
    (s.cls offset count).text a = if offset ≤ a ∧
    a < offset + 2 * count then if (a - offset) % 2 = 0 then 0x20 else 0x07 else s.text a := by
  induction count with
  | zero => grind [cls]
  | succ n ih =>
    rw [cls, Nat.fold_succ]
    change update (update (s.cls offset n).text _ _) _ _ a = _
    grind [update_apply]

theorem cls_stores {offset count : Nat} (inside : ∀ a ∈ s.stores, a < 4000) (fits : offset + 2 * count ≤ 4000) :
    ∀ a ∈ (s.cls offset count).stores, a < 4000 := by
  induction count with
  | zero => exact inside
  | succ n ih =>
    rw [cls, Nat.fold_succ]
    change ∀ a ∈ (offset + 2 * n + 1) :: (offset + 2 * n) :: (s.cls offset n).stores, a < 4000
    grind

theorem repMovsd_text (s : Screen) (n a : Nat) : (s.repMovsd n).text a = s.text (if a < 4 * n then a + 160 else a) := by
  induction n generalizing a with
  | zero => simp [repMovsd]
  | succ n ih =>
    rw [repMovsd, Nat.fold_succ]
    change ((s.repMovsd n).movsd (4 * n)).text a = _
    simp only [movsd, store, ih]
    grind [update_apply]

theorem repMovsd_stores {n : Nat} (inside : ∀ a ∈ s.stores, a < 4000) (fits : n ≤ 960) :
    ∀ a ∈ (s.repMovsd n).stores, a < 4000 := by
  induction n with
  | zero => exact inside
  | succ n ih =>
    rw [repMovsd, Nat.fold_succ]
    change ∀ a ∈ (4 * n + 3) :: (4 * n + 2) :: (4 * n + 1) :: (4 * n) :: (s.repMovsd n).stores, a < 4000
    grind

theorem Paints.setCursor (h : s.Paints cells) (bx : BitVec 16) : (s.setCursor bx).Paints cells := ⟨h.1, h.2⟩

theorem Paints.scroll (h : s.Paints t.cells) : s.rollScreen.Shows t.scroll := by
  refine ⟨rfl, (by omega : 1920 < 2000),
    .setCursor ⟨fun i inside => ?_, cls_stores (repMovsd_stores h.stores (Nat.le_refl _)) (by omega)⟩ 1920⟩
  have old := h.text (i + 80)
  rw [cls_text, cls_text, repMovsd_text, repMovsd_text, Terminal.scroll]
  grind

theorem slt_iff (small : bx.toNat < 0x8000) : bx.slt 2000 ↔ bx.toNat < 2000 := by
  rw [BitVec.slt_iff_toInt_lt, BitVec.toInt_eq_toNat_of_lt (by omega)]
  exact Int.ofNat_lt

theorem Paints.moveTo (h : s.Paints t.cells) (small : bx.toNat < 0x8000) :
    (if bx.slt 2000 then s.setCursor bx else s.rollScreen).Shows (t.moveTo bx.toNat) := by
  rw [Terminal.moveTo]
  by_cases inside : bx.toNat < 2000
  · rw [if_pos ((slt_iff small).mpr inside), if_pos inside]
    exact ⟨rfl, inside, h.setCursor bx⟩
  · rw [if_neg (mt (slt_iff small).mp inside), if_neg inside]
    exact h.scroll

theorem toNat_nextRow (small : bx.toNat ≤ 2000) : (bx - bx % 80 + 80).toNat = (bx.toNat / 80 + 1) * 80 := by
  have rest : (bx % 80).toNat = bx.toNat % 80 := BitVec.toNat_umod
  rw [BitVec.toNat_add, BitVec.toNat_sub, rest]
  change (_ + 80) % _ = _
  omega

theorem Paints.lineFeed (h : s.Paints t.cells) (small : bx.toNat ≤ 2000) :
    (s.lineFeed bx).Shows (t.moveTo ((bx.toNat / 80 + 1) * 80)) := by
  rw [← toNat_nextRow small]
  exact h.moveTo (by rw [toNat_nextRow small]; omega)

theorem putCell_eq (s : Screen) (small : bx.toNat < 2000) (b : Byte) :
    s.putCell bx b = ((s.store (2 * bx.toNat) b).store (2 * bx.toNat + 1) 0x07, bx) := by
  have twice : (bx <<< 1).toNat = 2 * bx.toNat := by
    rw [BitVec.toNat_shiftLeft, Nat.shiftLeft_eq]
    omega
  have next : (bx <<< 1 + 1).toNat = 2 * bx.toNat + 1 := by
    rw [BitVec.toNat_add, twice]
    change (_ + 1) % _ = _
    omega
  have half : (bx <<< 1 + 1) >>> 1 = bx := by
    apply BitVec.eq_of_toNat_eq
    rw [BitVec.toNat_ushiftRight, next, Nat.shiftRight_eq_div_pow]
    omega
  simp only [putCell, twice, next, half]

theorem Paints.putCell (h : s.Paints cells) (inside : bx.toNat < 2000) (b : Byte) :
    ((s.store (2 * bx.toNat) b).store (2 * bx.toNat + 1) 0x07).Paints (update cells bx.toNat b) := by
  refine ⟨fun i small => ?_, fun a member => ?_⟩
  · have old := h.text i small
    change (update (update s.text _ _) _ _ _ = _ ∧ update (update s.text _ _) _ _ _ = _)
    grind [update_apply]
  · have := h.stores a
    change a ∈ (2 * bx.toNat + 1) :: (2 * bx.toNat) :: s.stores at member
    grind

theorem Shows.putChar (h : s.Shows t) (b : Byte) (back : b = 0x08 → t.cursor ≠ 0) : (s.putChar b).Shows (t.put b) := by
  obtain ⟨cursor, inside, paints⟩ := h
  rw [Screen.putChar, Terminal.put, ← cursor]
  rw [← cursor] at inside back
  split
  · exact paints.lineFeed (Nat.le_of_lt inside)
  split
  · next erase =>
    have before : (s.cursor - 1).toNat = s.cursor.toNat - 1 :=
      BitVec.toNat_sub_of_le (BitVec.le_def.mpr (Nat.pos_of_ne_zero (back erase)))
    have small : (s.cursor - 1).toNat < 2000 := by omega
    rw [putCell_eq s small, ← before]
    exact ⟨rfl, small, (paints.putCell small 0x20).setCursor _⟩
  · have next : (s.cursor + 1).toNat = s.cursor.toNat + 1 := by
      rw [BitVec.toNat_add]
      change (_ + 1) % _ = _
      omega
    have painted : Paints _ ({ t with cells := update t.cells s.cursor.toNat b } : Terminal).cells :=
      paints.putCell inside b
    rw [putCell_eq s inside, ← next]
    dsimp only
    by_cases room : (s.cursor + 1).slt 2000
    · have := painted.moveTo (show (s.cursor + 1).toNat < _ by omega)
      rwa [if_pos room] at this ⊢
    · -- the last cell: the line feed from 2000 scrolls, as the terminal does
      have full : (s.cursor + 1).toNat = 2000 := by
        have := mt (slt_iff (by omega)).mpr room
        omega
      have := painted.lineFeed (Nat.le_of_eq full)
      rw [full] at this
      rw [if_neg room, full]
      exact this

theorem clsScreen_shows (text : Memory) (cursor : BitVec 16) : (clsScreen ⟨text, cursor, []⟩).Shows .blank := by
  refine ⟨rfl, (by omega : 0 < 2000), .setCursor ⟨fun i inside => ?_, cls_stores (by simp) (by omega)⟩ 0⟩
  rw [cls_text, cls_text]
  grind [Terminal.blank]

theorem putChar_home (home : s.cursor = 0) : (s.putChar 0x08).cursor = 0x7fff ∧ 0xfffe ∈ (s.putChar 0x08).stores := by
  simp [putChar, putCell, setCursor, store, home]

/-- After every byte the screen is that of the terminal, exactly when no backspace comes with the cursor
at cell 0. -/
theorem putChars_shows_iff (text : Memory) (cursor : BitVec 16) (bytes : List Byte) :
    (∀ sent, sent <+: bytes →
    (sent.foldl putChar (clsScreen ⟨text, cursor, []⟩)).Shows (sent.foldl Terminal.put .blank)) ↔
      ∀ sent, sent ++ [0x08] <+: bytes → (sent.foldl Terminal.put .blank).cursor ≠ 0 := by
  constructor
  · intro shows sent before home
    have old := (shows sent ((List.prefix_append _ _).trans before)).cursor
    have new := (shows _ before).paints.stores 0xfffe
    rw [List.foldl_append] at new
    rw [home] at old
    exact absurd (new (putChar_home (BitVec.eq_of_toNat_eq old)).2) (by decide)
  · intro never sent
    induction sent using List.reverseRecOn with
    | nil => exact fun _ => clsScreen_shows text cursor
    | append_singleton sent b ih =>
      intro before
      rw [List.foldl_append, List.foldl_append]
      exact (ih ((List.prefix_append _ _).trans before)).putChar b fun back => never sent (back ▸ before)

/-- A backspace on the cleared screen stores past the text memory and leaves the cursor at `0x7fff`. -/
theorem putChar_leaves_screen : ((clsScreen ⟨.zero, 0, []⟩).putChar 0x08).cursor = 0x7fff ∧
    0xfffe ∈ ((clsScreen ⟨.zero, 0, []⟩).putChar 0x08).stores :=
  putChar_home rfl

end Screen

end LaiMiniOs
