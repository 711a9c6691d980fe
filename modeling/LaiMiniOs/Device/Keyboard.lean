import Mathlib.Logic.Function.Basic
import LaiMiniOs.Foundation.Memory

/-! `intr_keyboard_handler` of `device/keyboard.c` against the keys that are down. -/

set_option autoImplicit false

namespace LaiMiniOs
open Foundation Function

def keymap : List (Char × Char) :=
  [('\x00', '\x00'), ('\x1b', '\x1b'), ('1', '!'), ('2', '@'), ('3', '#'), ('4', '$'), ('5', '%'), ('6', '^'),
    ('7', '&'), ('8', '*'),
    ('9', '('), ('0', ')'), ('-', '_'), ('=', '+'), ('\x08', '\x08'), ('\t', '\t'), ('q', 'Q'), ('w', 'W'),
      ('e', 'E'), ('r', 'R'),
    ('t', 'T'), ('y', 'Y'), ('u', 'U'), ('i', 'I'), ('o', 'O'), ('p', 'P'), ('[', '\x7b'), (']', '\x7d'),
      ('\r', '\r'), ('\x00', '\x00'),
    ('a', 'A'), ('s', 'S'), ('d', 'D'), ('f', 'F'), ('g', 'G'), ('h', 'H'), ('j', 'J'), ('k', 'K'), ('l', 'L'),
      (';', ':'),
    ('\x27', '\x22'), ('\x60', '~'), ('\x00', '\x00'), ('\x5c', '|'), ('z', 'Z'), ('x', 'X'), ('c', 'C'), ('v', 'V'),
      ('b', 'B'), ('n', 'N'),
    ('m', 'M'), (',', '<'), ('.', '>'), ('/', '?'), ('\x00', '\x00'), ('*', '*'), ('\x00', '\x00'), (' ', ' '),
      ('\x00', '\x00')]

def keymapAt (index : Nat) (shift : Bool) : Char :=
  let chars := keymap.getD index ('\x00', '\x00'); if shift then chars.2 else chars.1

structure KbdStatus where
  ctrl : Bool
  shift : Bool
  alt : Bool
  caps : Bool
  deriving DecidableEq

def KbdStatus.breakCode (f : KbdStatus) (makeCode : BitVec 16) : KbdStatus :=
  if makeCode = 0x1d ∨ makeCode = 0xe01d then { f with ctrl := false }
  else if makeCode = 0x2a ∨ makeCode = 0x36 then { f with shift := false }
  else if makeCode = 0x38 ∨ makeCode = 0xe038 then { f with alt := false }
  else f

def KbdStatus.makeCode (f : KbdStatus) (scancode : BitVec 16) : KbdStatus × Option Char :=
  if (0x00 < scancode ∧ scancode < 0x3b) ∨ scancode = 0xe038 ∨ scancode = 0xe01d then
    let shift := if scancode < 0x0e ∨ [0x29, 0x1a, 0x1b, 0x2b, 0x27, 0x28, 0x33, 0x34, 0x35].contains scancode
      then f.shift
      else if f.shift && f.caps then false else f.shift || f.caps
    let scancode := scancode &&& 0x00ff
    let curChar := keymapAt scancode.toNat shift
    if curChar ≠ '\x00' then
      (f, some (if (f.ctrl ∧ curChar = 'l') ∨ (f.ctrl ∧ curChar = 'u') then Char.ofNat (curChar.toNat - 'a'.toNat)
        else curChar))
    else if scancode = 0x1d ∨ scancode = 0xe01d then ({ f with ctrl := true }, none)
    else if scancode = 0x2a ∨ scancode = 0x36 then ({ f with shift := true }, none)
    else if scancode = 0x38 ∨ scancode = 0xe038 then ({ f with alt := true }, none)
    else if scancode = 0x3a then ({ f with caps := !f.caps }, none)
    else (f, none)
  else (f, none)

/-- The static variables of the handler, how many interrupts it took and what it put into `kbd_buf`. -/
structure Kbd where
  status : KbdStatus
  extScancode : Bool
  handled : Nat
  queued : List Char

def scancodeOf (ext : Bool) (b : Byte) : BitVec 16 := if ext then 0xe000 ||| b.setWidth 16 else b.setWidth 16

/-- The interrupt for one byte; `full n` says whether `kbd_buf` is full at interrupt `n`. -/
def Kbd.handler (full : Nat → Bool) (s : Kbd) (b : Byte) : Kbd :=
  if b = 0xe0 then { s with extScancode := true, handled := s.handled + 1 }
  else
    let scancode := scancodeOf s.extScancode b
    if scancode &&& 0x0080 ≠ 0 then ⟨s.status.breakCode (scancode &&& 0xff7f), false, s.handled + 1, s.queued⟩
    else
      let (status, char) := s.status.makeCode scancode
      ⟨status, false, s.handled + 1, s.queued ++ if full s.handled then [] else char.toList⟩

/-- A key by its make code. The break code of `0x60` would be the byte of the extended codes. -/
structure Key where
  ext : Bool
  code : BitVec 7
  proper : code ≠ 0x60
  deriving DecidableEq

def Key.ctrls : List Key := [⟨false, 0x1d, by decide⟩, ⟨true, 0x1d, by decide⟩]
def Key.shifts : List Key := [⟨false, 0x2a, by decide⟩, ⟨false, 0x36, by decide⟩]
def Key.alts : List Key := [⟨false, 0x38, by decide⟩, ⟨true, 0x38, by decide⟩]
def Key.capsLock : Key := ⟨false, 0x3a, by decide⟩

inductive KeyEvent where
  | press (key : Key)
  | release (key : Key)
  | pause

def Key.bytes (key : Key) (code : Byte) (e : KeyEvent) : List (Byte × Option KeyEvent) :=
  (if key.ext then [(0xe0, none)] else []) ++ [(code, some e)]

def KeyEvent.bytes : KeyEvent → List (Byte × Option KeyEvent)
  | .press key => key.bytes (key.code.setWidth 8) (.press key)
  | .release key => key.bytes (0x80 ||| key.code.setWidth 8) (.release key)
  | .pause => [(0xe1, none), (0x1d, none), (0x45, none), (0xe1, none), (0x9d, none), (0xc5, some .pause)]

/-- The keys that are down and the parity of the caps-lock codes, with the characters that belong in the queue. -/
structure Keyboard where
  down : Key → Bool
  caps : Bool
  sent : Nat
  typed : List Char

def Keyboard.status (k : Keyboard) : KbdStatus :=
  ⟨Key.ctrls.any k.down, Key.shifts.any k.down, Key.alts.any k.down, k.caps⟩

/-- The character of a key: a letter goes by shift and caps lock together, any other key by shift. -/
def Key.char (key : Key) (f : KbdStatus) : Option Char :=
  let letter := (keymapAt key.code.toNat false).isLower
  let char := keymapAt key.code.toNat (f.shift ^^ (letter && f.caps))
  if key.ext ∨ char = '\x00' then none
  else some (if f.ctrl ∧ (char = 'l' ∨ char = 'u') then Char.ofNat (char.toNat - 'a'.toNat) else char)

def Keyboard.feel (full : Nat → Bool) (k : Keyboard) : Option KeyEvent → Keyboard
  | some (.press key) => ⟨update k.down key true, k.caps ^^ (key = .capsLock), k.sent + 1,
      k.typed ++ if full k.sent then [] else (key.char k.status).toList⟩
  | some (.release key) => { k with down := update k.down key false, sent := k.sent + 1 }
  | some .pause | none => { k with sent := k.sent + 1 }

def Kbd.Agrees (s : Kbd) (k : Keyboard) : Prop := s.status = k.status ∧ s.queued = k.typed

def Kbd.Tracks (full : Nat → Bool) : List (Byte × Option KeyEvent) → Kbd → Keyboard → Prop
  | [], s, k => s.Agrees k
  | (b, e) :: rest, s, k => s.Agrees k ∧ Tracks full rest (s.handler full b) (k.feel full e)

/-- No modifier is released while its twin is down, and the pause key is not used. -/
def KeyEvent.Apart (k : Keyboard) : KeyEvent → Prop
  | .press _ => True
  | .release key => ∀ twins ∈ [Key.ctrls, Key.shifts, Key.alts], key ∈ twins → ∀ twin ∈ twins, twin ≠ key →
      k.down twin = false
  | .pause => False

def Kbd.takes (full : Nat → Bool) (s : Kbd) (bytes : List (Byte × Option KeyEvent)) : Kbd :=
  bytes.foldl (fun s item => s.handler full item.1) s

def Keyboard.feels (full : Nat → Bool) (k : Keyboard) (bytes : List (Byte × Option KeyEvent)) : Keyboard :=
  bytes.foldl (fun k item => k.feel full item.2) k

def Keyboard.Apart (full : Nat → Bool) : List KeyEvent → Keyboard → Prop
  | [], _ => True
  | e :: rest, k => e.Apart k ∧ Apart full rest (k.feels full e.bytes)

def Kbd.init : Kbd := ⟨⟨false, false, false, false⟩, false, 0, []⟩

def Keyboard.init : Keyboard := ⟨fun _ => false, false, 0, []⟩

/-- What a make code and a break code of a key do to the status, said of the key. -/
def Key.pressed (key : Key) (f : KbdStatus) : KbdStatus :=
  ⟨f.ctrl || Key.ctrls.contains key, f.shift || Key.shifts.contains key, f.alt || Key.alts.contains key,
    f.caps ^^ (key = .capsLock)⟩

def Key.released (key : Key) (f : KbdStatus) : KbdStatus :=
  ⟨f.ctrl && !Key.ctrls.contains key, f.shift && !Key.shifts.contains key, f.alt && !Key.alts.contains key, f.caps⟩

section
variable {full : Nat → Bool} {s : Kbd} {k : Keyboard}

theorem makeCode_key : ∀ (ext : Bool) (code : BitVec 7) (proper : code ≠ 0x60) (ctrl shift alt caps : Bool),
    KbdStatus.makeCode ⟨ctrl, shift, alt, caps⟩ (scancodeOf ext (code.setWidth 8)) =
      (Key.pressed ⟨ext, code, proper⟩ ⟨ctrl, shift, alt, caps⟩, Key.char ⟨ext, code, proper⟩
      ⟨ctrl, shift, alt, caps⟩) := by
  decide +kernel

theorem breakCode_key : ∀ (ext : Bool) (code : BitVec 7) (proper : code ≠ 0x60) (ctrl shift alt caps : Bool),
    KbdStatus.breakCode ⟨ctrl, shift, alt, caps⟩ (scancodeOf ext (0x80 ||| code.setWidth 8) &&& 0xff7f) =
      Key.released ⟨ext, code, proper⟩ ⟨ctrl, shift, alt, caps⟩ := by
  decide +kernel

theorem any_press (keys : List Key) (key : Key) (down : Key → Bool) :
    keys.any (update down key true) = (keys.any down || keys.contains key) := by
  rw [Bool.eq_iff_iff]
  grind [update_apply]

theorem any_release (keys : List Key) (key : Key) (down : Key → Bool) :
    (keys.any down && !keys.contains key) = keys.any (update down key false) ↔
    (key ∈ keys → ∀ twin ∈ keys, twin ≠ key → down twin = false) := by
  rw [Bool.eq_iff_iff]
  grind [update_apply]

theorem handler_press (key : Key) (n : Nat) (f : KbdStatus) (queued : List Char) :
    Kbd.handler full ⟨f, key.ext, n, queued⟩ (key.code.setWidth 8) =
    ⟨key.pressed f, false, n + 1, queued ++ if full n then [] else (key.char f).toList⟩ := by
  have plain : ∀ code : BitVec 7, code.setWidth 8 ≠ (0xe0 : Byte) := by decide
  have make : ∀ (ext : Bool) (code : BitVec 7), scancodeOf ext (code.setWidth 8) &&& 0x0080 = 0 := by decide
  rw [Kbd.handler, if_neg (plain _)]
  dsimp only
  rw [if_neg (not_not.mpr (make _ _)), makeCode_key _ _ key.proper]

theorem handler_release (key : Key) (n : Nat) (f : KbdStatus) (queued : List Char) :
    Kbd.handler full ⟨f, key.ext, n, queued⟩ (0x80 ||| key.code.setWidth 8) =
    ⟨key.released f, false, n + 1, queued⟩ := by
  have plain : ∀ code : BitVec 7, code ≠ 0x60 → 0x80 ||| code.setWidth 8 ≠ (0xe0 : Byte) := by decide
  have break_ : ∀ (ext : Bool) (code : BitVec 7), scancodeOf ext (0x80 ||| code.setWidth 8) &&& 0x0080 ≠ 0 := by decide
  rw [Kbd.handler, if_neg (plain _ key.proper)]
  dsimp only
  rw [if_pos (break_ _ _), breakCode_key _ _ key.proper]

structure Kbd.Rests (s : Kbd) (k : Keyboard) : Prop where
  agrees : s.Agrees k
  plain : s.extScancode = false
  handled : s.handled = k.sent

theorem tracks_append {xs ys : List (Byte × Option KeyEvent)} : s.Tracks full (xs ++ ys) k ↔ s.Tracks full xs k ∧
    (s.takes full xs).Tracks full ys (k.feels full xs) := by
  induction xs generalizing s k with
  | nil => cases ys <;> exact ⟨fun h => ⟨by first | exact h | exact h.1, h⟩, And.right⟩
  | cons x xs ih => exact (and_congr_right fun _ => ih).trans and_assoc.symm

/-- The last byte of a key decides; `0xe0` in front of it changes nothing that is compared. -/
theorem tracks_key (rests : s.Rests k) {key : Key} {b : Byte} {e : KeyEvent} {P : Prop}
    (ends : ∀ n, (Kbd.Agrees (.handler full ⟨s.status, key.ext, n, s.queued⟩ b)
    (.feel full ⟨k.down, k.caps, n, k.typed⟩ (some e)) ↔ P) ∧
      (P → Kbd.Rests (.handler full ⟨s.status, key.ext, n, s.queued⟩ b)
      (.feel full ⟨k.down, k.caps, n, k.typed⟩ (some e)))) :
    (s.Tracks full (key.bytes b e) k ↔ P) ∧
    (P → (s.takes full (key.bytes b e)).Rests (k.feels full (key.bytes b e))) := by
  obtain ⟨agrees, rest, handled⟩ := rests
  obtain ⟨status, _, n, queued⟩ := s
  obtain ⟨down, caps, _, typed⟩ := k
  obtain ⟨ext, code, proper⟩ := key
  cases rest
  cases handled
  cases ext
  · exact ⟨(and_iff_right agrees).trans (ends n).1, (ends n).2⟩
  · exact ⟨(and_iff_right agrees).trans ((and_iff_right agrees).trans (ends (n + 1)).1), (ends (n + 1)).2⟩

theorem event_tracks (e : KeyEvent) (rests : s.Rests k) : (s.Tracks full e.bytes k ↔ e.Apart k) ∧
    (e.Apart k → (s.takes full e.bytes).Rests (k.feels full e.bytes)) := by
  obtain ⟨status, queue⟩ := rests.agrees
  cases e with
  | press key =>
    refine tracks_key rests fun n => ?_
    rw [handler_press, status, queue]
    have same : key.pressed k.status =
        Keyboard.status (.feel full ⟨k.down, k.caps, n, k.typed⟩ (some (.press key))) := by
      simp only [Key.pressed, Keyboard.status, Keyboard.feel, any_press]
    exact ⟨iff_of_true ⟨same, rfl⟩ trivial, fun _ => ⟨⟨same, rfl⟩, rfl, rfl⟩⟩
  | release key =>
    refine tracks_key rests fun n => ?_
    rw [handler_release, status, queue]
    have agrees : Kbd.Agrees ⟨key.released k.status, false, n + 1, k.typed⟩
        (.feel full ⟨k.down, k.caps, n, k.typed⟩ (some (.release key))) ↔ (KeyEvent.release key).Apart k := by
      refine (and_iff_left rfl).trans ?_
      simp only [Key.released, Keyboard.status, Keyboard.feel, KbdStatus.mk.injEq, any_release, and_true,
        KeyEvent.Apart, List.forall_mem_cons, List.not_mem_nil, false_imp_iff, implies_true]
    exact ⟨agrees, fun apart => ⟨agrees.mpr apart, rfl, rfl⟩⟩
  | pause =>
    -- the second byte sets `ctrl_status`, the fifth clears it, and no key of the keyboard moves
    refine ⟨iff_of_false (fun ⟨_, _, made, _, _, broken, _⟩ => ?_) id, False.elim⟩
    have sets (t : Kbd) : (t.handler full 0x1d).status.ctrl = true := by
      obtain ⟨f, ext, n, queued⟩ := t
      refine (congrArg (·.status.ctrl) (handler_press ⟨ext, 0x1d, by decide⟩ n f queued)).trans ?_
      cases ext <;> exact Bool.or_true _
    have clears (t : Kbd) : (t.handler full 0x9d).status.ctrl = false := by
      obtain ⟨f, _ | _, n, queued⟩ := t <;> simp [Kbd.handler, scancodeOf, KbdStatus.breakCode]
    have both := (congrArg KbdStatus.ctrl made.1).trans (congrArg KbdStatus.ctrl broken.1).symm
    rw [sets, clears] at both
    cases both

theorem tracks_iff (events : List KeyEvent) (rests : s.Rests k) : s.Tracks full (events.flatMap KeyEvent.bytes) k ↔
    k.Apart full events := by
  induction events generalizing s k with
  | nil => exact iff_of_true rests.agrees trivial
  | cons e rest ih =>
    rw [List.flatMap_cons, tracks_append, (event_tracks e rests).1]
    exact and_congr_right fun apart => ih ((event_tracks e rests).2 apart)

end

/-- Status and queue are those of the keyboard after every byte, exactly when no modifier is released
while its twin is down and the pause key is not used. -/
theorem keys_tracked_iff (full : Nat → Bool) (events : List KeyEvent) :
    Kbd.init.Tracks full (events.flatMap KeyEvent.bytes) .init ↔ Keyboard.init.Apart full events :=
  tracks_iff events ⟨⟨rfl, rfl⟩, rfl, rfl⟩

theorem shift_forgotten :
    ¬ Kbd.init.Tracks (fun _ => false)
    ([.press ⟨false, 0x2a, by decide⟩, .press ⟨false, 0x36, by decide⟩, .release ⟨false, 0x2a, by decide⟩].flatMap
    KeyEvent.bytes) .init :=
  fun tracks => absurd (congrArg KbdStatus.shift tracks.2.2.2.1) (by decide)

end LaiMiniOs
