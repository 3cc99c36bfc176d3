import RucDDBS.Library.Follow
import RucDDBS.Recovery.RedoScan

/-!
The loops of `Redo` on a file with any bytes in it, such as a crash may leave.
What is decoded does not steer them, and is arbitrary here. Only the size fields
do, and there the bytes are taken as they are: a sum that leaves the 32 bits
starts again from zero, an `int` offset that leaves them becomes negative, and a
probe behind the buffer sees whatever bytes are there.

The inner loop follows the size fields, forwards or, when the sum wraps around,
backwards. The outer loop stands still if the first size field of a window has
nothing to offer.
-/

namespace RucDDBS

namespace RecoveryManager

/-- The size field at `inner`, with the bytes `behind` the buffer. -/
def sizeField (buffer behind : Bytes) (inner : Nat) : Nat :=
  Bytes.ofLE (((buffer ++ behind).drop inner).take 4)

/-- Where the inner loop goes on, unless it breaks. -/
def nextInner (buffer behind : Bytes) (inner : Nat) : Option Nat :=
  if sizeField buffer behind inner = 0 ∨
      logBufferSize < (sizeField buffer behind inner + inner) % 2 ^ 32 then none
  else some ((sizeField buffer behind inner + inner) % 2 ^ 32)

/-- `ReadLog(buffer_, LOG_BUFFER_SIZE, offset)`, if it reads. The offset is turned
into a `size_t`; one that was negative cannot be sought, and then nothing is
read. -/
def windowAt (file : Bytes) (offset : Int) : Option Bytes :=
  if LogStorage.getFileSize file ≤ (offset % 2 ^ 64).toNat then none
  else some (Bytes.padTo logBufferSize (if 0 ≤ offset then file.drop offset.toNat else []))

/-- The inner loop, with `decode` in place of `DeserializeFrom`. -/
def redoWindowAny (decode : Bytes → Nat → LogRecord) (behind : Bytes) (offset : Int) :
    Nat → RecoveryManager → Nat → Int → Option (RecoveryManager × Nat × Int)
  | 0, _, _, _ => none
  | rounds + 1, m, inner, maxLsn =>
      match nextInner m.buffer behind inner with
      | none => some (m, inner, maxLsn)
      | some next =>
          let log := decode m.buffer inner
          let m := m.remember log.lsn (offset + inner).toNat (sizeField m.buffer behind inner)
          redoWindowAny decode behind offset rounds (m.redoLog log) next (max maxLsn log.lsn)

/-- The outer loop. -/
def redoLoopAny (decode : Bytes → Nat → LogRecord) (behind file : Bytes) (bound : Nat) :
    Nat → RecoveryManager → Int → Int → Option (RecoveryManager × Int)
  | 0, _, _, _ => none
  | rounds + 1, m, offset, maxLsn =>
      match windowAt file offset with
      | none => some (m, maxLsn)
      | some buffer => do
          let (m, inner, maxLsn) ←
            redoWindowAny decode behind offset bound (m.setBuffer buffer) 0 maxLsn
          redoLoopAny decode behind file bound rounds m ((offset + inner).bmod (2 ^ 32)) maxLsn

def redoAny (decode : Bytes → Nat → LogRecord) (behind file : Bytes) (bound : Nat)
    (m : RecoveryManager) : Option RecoveryManager := do
  let (m, maxLsn) ← redoLoopAny decode behind file bound bound m 0 invalidLsn
  pure { m with logManager := { m.logManager with nextLsn := maxLsn + 1 } }

/-- The size fields lead the inner loop out of the window behind its start: the
first one is that of a record which the window may hold, and none leads back to
an offset that has been passed. -/
structure Advances (buffer behind : Bytes) : Prop where
  size : 1 ≤ sizeField buffer behind 0 ∧ sizeField buffer behind 0 ≤ logBufferSize
  forward : ∀ inner, Follow.Meets (nextInner buffer behind) 0 inner →
    ¬ Follow.Circle (nextInner buffer behind) inner

/-- The window at `offset` is left for the one at `offset'`. -/
def NextWindow (file behind : Bytes) (offset offset' : Int) : Prop :=
  ∃ buffer inner, windowAt file offset = some buffer ∧
    Follow.Meets (nextInner buffer behind) 0 inner ∧ nextInner buffer behind inner = none ∧
    offset' = (offset + inner).bmod (2 ^ 32)

section Window

variable {buffer behind : Bytes} {inner next : Nat}

theorem sizeField_lt (buffer behind : Bytes) (inner : Nat) :
    sizeField buffer behind inner < 2 ^ 32 := by
  have hlt := Bytes.ofLE_lt (((buffer ++ behind).drop inner).take 4)
  have hle : (((buffer ++ behind).drop inner).take 4).length ≤ 4 := List.length_take_le _ _
  have hpow : 256 ^ (((buffer ++ behind).drop inner).take 4).length ≤ 256 ^ 4 :=
    Nat.pow_le_pow_right (by decide) hle
  exact hlt.trans_le hpow

theorem nextInner_eq_some (h : nextInner buffer behind inner = some next) :
    sizeField buffer behind inner ≠ 0 ∧ next ≤ logBufferSize ∧
      next = (sizeField buffer behind inner + inner) % 2 ^ 32 := by
  unfold nextInner at h
  split at h
  case isTrue => cases h
  case isFalse hgo =>
    rw [not_or, not_lt] at hgo
    cases h
    exact ⟨hgo.1, hgo.2, rfl⟩

/-- The loop takes a record at the start of the window. -/
theorem nextInner_start_iff : (∃ next, nextInner buffer behind 0 = some next) ↔
    1 ≤ sizeField buffer behind 0 ∧ sizeField buffer behind 0 ≤ logBufferSize := by
  have hlt := sizeField_lt buffer behind 0
  unfold nextInner
  rw [Nat.add_zero, Nat.mod_eq_of_lt hlt]
  split
  case isTrue hstop =>
    constructor
    · rintro ⟨next, hnext⟩
      cases hnext
    · omega
  case isFalse hgo =>
    constructor
    · omega
    · intro _
      exact ⟨_, rfl⟩

/-- The inner loop stays in the window. -/
theorem meets_le (h : Follow.Meets (nextInner buffer behind) 0 inner) : inner ≤ logBufferSize := by
  induction h with
  | refl => exact Nat.zero_le _
  | tail _ hnext _ => exact (nextInner_eq_some hnext).2.1

/-- It gets out of a window that advances, and not at its start. -/
theorem Advances.exists_last (h : Advances buffer behind) :
    ∃ inner, Follow.last (nextInner buffer behind) (logBufferSize + 2) 0 = some inner := by
  have hin : ∀ inner, Follow.Meets (nextInner buffer behind) 0 inner →
      inner ∈ Finset.range (logBufferSize + 1) := by
    intro inner hmeets
    have hle := meets_le hmeets
    rw [Finset.mem_range]
    omega
  have hlast := Follow.last_isSome hin h.forward
  rw [Finset.card_range] at hlast
  exact hlast

theorem Advances.last_pos (h : Advances buffer behind)
    {steps : Nat} (hlast : Follow.last (nextInner buffer behind) steps 0 = some inner) :
    0 < inner ∧ inner ≤ logBufferSize := by
  obtain ⟨hmeets, hend⟩ := Follow.last_spec hlast
  refine ⟨?_, meets_le hmeets⟩
  rcases Nat.eq_zero_or_pos inner with rfl | hpos
  · obtain ⟨next, hnext⟩ := nextInner_start_iff.mpr h.size
    rw [hend] at hnext
    cases hnext
  · exact hpos

end Window

section File

variable {decode : Bytes → Nat → LogRecord} {behind file buffer : Bytes} {bound rounds : Nat}
  {m : RecoveryManager} {offset offset' maxLsn : Int} {r : RecoveryManager × Int}

/-- What is decoded does not steer the inner loop. -/
theorem redoWindowAny_last (decode : Bytes → Nat → LogRecord) (behind : Bytes) (offset : Int)
    (rounds : Nat) (m : RecoveryManager) (inner : Nat) (maxLsn : Int) :
    (redoWindowAny decode behind offset rounds m inner maxLsn).map (fun r => r.2.1) =
      Follow.last (nextInner m.buffer behind) rounds inner := by
  induction rounds generalizing m inner maxLsn with
  | zero => rfl
  | succ rounds ih =>
      rw [redoWindowAny, Follow.last]
      cases nextInner m.buffer behind inner with
      | none => rfl
      | some next => simp only [ih, redoLog_buffer, remember_buffer]

/-- One round of the outer loop. -/
theorem redoLoopAny_window (decode : Bytes → Nat → LogRecord) (rounds : Nat)
    (m : RecoveryManager) (maxLsn : Int) (hwindow : windowAt file offset = some buffer) {inner : Nat}
    (hlast : Follow.last (nextInner buffer behind) bound 0 = some inner) :
    ∃ m' maxLsn', redoLoopAny decode behind file bound (rounds + 1) m offset maxLsn =
      redoLoopAny decode behind file bound rounds m' ((offset + inner).bmod (2 ^ 32)) maxLsn' := by
  have hleave := redoWindowAny_last decode behind offset bound (m.setBuffer buffer) 0 maxLsn
  rw [setBuffer_buffer, hlast, Option.map_eq_some_iff] at hleave
  obtain ⟨⟨m', inner', maxLsn'⟩, hresult, hinner⟩ := hleave
  refine ⟨m', maxLsn', ?_⟩
  simp only [redoLoopAny, hwindow, hresult, ← hinner, Option.bind_eq_bind, Option.bind_some]

/-- A round that does not get out of its window has no result. -/
theorem redoLoopAny_stuck (hwindow : windowAt file offset = some buffer)
    (hlast : Follow.last (nextInner buffer behind) bound 0 = none) :
    redoLoopAny decode behind file bound (rounds + 1) m offset maxLsn = none := by
  have hleave := redoWindowAny_last decode behind offset bound (m.setBuffer buffer) 0 maxLsn
  rw [setBuffer_buffer, hlast, Option.map_eq_none_iff] at hleave
  simp only [redoLoopAny, hwindow, hleave, Option.bind_eq_bind, Option.bind_none]

theorem redoLoopAny_end (hwindow : windowAt file offset = none) :
    redoLoopAny decode behind file bound (rounds + 1) m offset maxLsn = some (m, maxLsn) := by
  rw [redoLoopAny, hwindow]

/-- Each window has one that follows it. -/
theorem NextWindow.eq (h : NextWindow file behind offset offset')
    (hwindow : windowAt file offset = some buffer) {inner : Nat}
    (hlast : Follow.last (nextInner buffer behind) bound 0 = some inner) :
    offset' = (offset + inner).bmod (2 ^ 32) := by
  obtain ⟨buffer', inner', hwindow', hmeets, hend, hnext⟩ := h
  have hbuffer : buffer' = buffer := Option.some.inj (hwindow'.symm.trans hwindow)
  rw [hbuffer] at hmeets hend
  rw [hnext, hmeets.last_eq hend hlast]

theorem bmod_bounds (n : Int) : -2 ^ 31 ≤ n.bmod (2 ^ 32) ∧ n.bmod (2 ^ 32) < 2 ^ 31 := by
  rw [Int.bmod_def]
  omega

theorem bmod_of_int32 {n : Int} (h : -2 ^ 31 ≤ n ∧ n < 2 ^ 31) : n.bmod (2 ^ 32) = n := by
  rw [Int.bmod_def]
  omega

/-- If the loops end, all windows advance. One that does not would be read again
in the next round. -/
theorem advances_of_ends (hoffset : -2 ^ 31 ≤ offset ∧ offset < 2 ^ 31)
    (h : redoLoopAny decode behind file bound rounds m offset maxLsn = some r)
    (hreach : Relation.ReflTransGen (NextWindow file behind) offset offset')
    (hwindow : windowAt file offset' = some buffer) : Advances buffer behind := by
  induction rounds generalizing m offset maxLsn with
  | zero => cases h
  | succ rounds ih =>
      cases hfirst : windowAt file offset with
      | none =>
          rcases Relation.ReflTransGen.cases_head hreach with heq | ⟨next, hnext, _⟩
          · rw [← heq, hfirst] at hwindow
            cases hwindow
          · obtain ⟨_, _, hsome, _⟩ := hnext
            exact absurd (hfirst.symm.trans hsome) (by simp)
      | some first =>
          cases hlast : Follow.last (nextInner first behind) bound 0 with
          | none =>
              rw [redoLoopAny_stuck hfirst hlast] at h
              cases h
          | some inner =>
              obtain ⟨m', maxLsn', hround⟩ := redoLoopAny_window decode rounds m maxLsn hfirst hlast
              rw [hround] at h
              obtain ⟨hmeets, hend⟩ := Follow.last_spec hlast
              rcases Nat.eq_zero_or_pos inner with rfl | hpos
              · -- the same window once more
                have hsame : (offset + (0 : Nat)).bmod (2 ^ 32) = offset := by
                  show (offset + 0).bmod (2 ^ 32) = offset
                  rw [Int.add_zero, bmod_of_int32 hoffset]
                rw [hsame] at h
                exact ih hoffset h hreach
              · rcases Relation.ReflTransGen.cases_head hreach with heq | ⟨next, hnext, hrest⟩
                · rw [← heq, hfirst] at hwindow
                  cases hwindow
                  constructor
                  · apply nextInner_start_iff.mp
                    rcases Relation.ReflTransGen.cases_head hmeets with hzero | ⟨next, hnext, _⟩
                    · omega
                    · exact ⟨next, hnext⟩
                  · intro inner' hmeets'
                    exact Follow.no_circle hlast hmeets'
                · rw [hnext.eq hfirst hlast] at hrest
                  exact ih (bmod_bounds _) h hrest

/-- Before the file nothing is read. -/
theorem windowAt_neg (behind : Bytes) (hwindow : windowAt file offset = some buffer) (hneg : offset < 0) :
    sizeField buffer behind 0 = 0 := by
  unfold windowAt at hwindow
  split at hwindow
  case isTrue => cases hwindow
  case isFalse =>
    rw [if_neg (by omega)] at hwindow
    cases hwindow
    rfl

/-- If all windows advance, the loops end: the offset grows until it leaves the
file or the `int`s. -/
theorem ends_of_advances (hbound : logBufferSize + 2 ≤ bound)
    (hoffset : -2 ^ 31 ≤ offset ∧ offset < 2 ^ 31) (hrounds : 0 < rounds)
    (hfew : 0 ≤ offset → 2 ^ 31 - offset < rounds)
    (h : ∀ offset' buffer, Relation.ReflTransGen (NextWindow file behind) offset offset' →
      windowAt file offset' = some buffer → Advances buffer behind) :
    ∃ r, redoLoopAny decode behind file bound rounds m offset maxLsn = some r := by
  induction rounds generalizing m offset maxLsn with
  | zero => omega
  | succ rounds ih =>
      cases hwindow : windowAt file offset with
      | none => exact ⟨_, redoLoopAny_end hwindow⟩
      | some buffer =>
          have hadvances := h offset buffer .refl hwindow
          obtain ⟨inner, hshort⟩ := hadvances.exists_last
          have hlast := Follow.last_mono hshort hbound
          obtain ⟨hpos, hle⟩ := hadvances.last_pos hlast
          have hnonneg : 0 ≤ offset := by
            by_contra hneg
            have hzero := windowAt_neg behind hwindow (by omega)
            have hsize := hadvances.size
            omega
          have hleft := hfew hnonneg
          have hnext : NextWindow file behind offset ((offset + inner).bmod (2 ^ 32)) := by
            obtain ⟨hmeets, hend⟩ := Follow.last_spec hlast
            exact ⟨buffer, inner, hwindow, hmeets, hend, rfl⟩
          obtain ⟨m', maxLsn', hround⟩ := redoLoopAny_window decode rounds m maxLsn hwindow hlast
          rw [hround]
          apply ih (bmod_bounds _)
          · omega
          · intro hagain
            rw [logBufferSize] at hle
            rw [Int.bmod_def] at hagain ⊢
            omega
          · intro offset' buffer' hreach
            exact h offset' buffer' (Relation.ReflTransGen.head hnext hreach)

/-- The loops of `Redo` end on a file if and only if every window that they read
advances. -/
theorem redoAny_ends_iff (decode : Bytes → Nat → LogRecord) (behind file : Bytes)
    (m : RecoveryManager) :
    (∃ bound m', redoAny decode behind file bound m = some m') ↔
      ∀ offset buffer, Relation.ReflTransGen (NextWindow file behind) 0 offset →
        windowAt file offset = some buffer → Advances buffer behind := by
  constructor
  · rintro ⟨bound, m', hredo⟩ offset buffer hreach hwindow
    cases hloop : redoLoopAny decode behind file bound bound m 0 invalidLsn with
    | none =>
        simp only [redoAny, hloop, Option.bind_eq_bind, Option.bind_none] at hredo
        cases hredo
    | some r => exact advances_of_ends (by decide) hloop hreach hwindow
  · intro h
    obtain ⟨bound, hbound⟩ : ∃ bound, bound = logBufferSize + 2 ^ 31 + 1 := ⟨_, rfl⟩
    have hmany : logBufferSize + 2 ≤ bound := by omega
    have hends : ∃ r, redoLoopAny decode behind file bound bound m 0 invalidLsn = some r :=
      ends_of_advances hmany (by decide) (by omega) (fun _ => by omega) h
    obtain ⟨r, hloop⟩ := hends
    refine ⟨bound,
      { r.1 with logManager := { r.1.logManager with nextLsn := r.2 + 1 } }, ?_⟩
    simp only [redoAny, hloop, Option.bind_eq_bind, Option.bind_some, Option.pure_def]

/-- A log of one record, and a zero byte behind it. -/
def zeroTail : Bytes :=
  encodeLog [{ LogRecord.ofTxn 1 invalidLsn .begin with lsn := 0 }] ++ [0]

/-- The window that starts at the zero byte is read again and again. -/
theorem zeroTail_never_ends :
    ¬ ∃ decode m bound m', redoAny decode [] zeroTail bound m = some m' := by
  rintro ⟨decode, m, hends⟩
  rw [redoAny_ends_iff] at hends
  have hfirst : windowAt zeroTail 0 = some (Bytes.padTo logBufferSize zeroTail) :=
    if_neg (by decide +kernel)
  have htail : windowAt zeroTail 24 = some (Bytes.padTo logBufferSize [0]) :=
    if_neg (by decide +kernel)
  have hnext : NextWindow zeroTail [] 0 24 := by
    have hrecord : nextInner (Bytes.padTo logBufferSize zeroTail) [] 0 = some 24 := by
      decide +kernel
    have hend : nextInner (Bytes.padTo logBufferSize zeroTail) [] 24 = none := by
      decide +kernel
    exact ⟨_, 24, hfirst, .single hrecord, hend, rfl⟩
  have hsize := (hends 24 _ (.single hnext) htail).size.1
  have hzero : sizeField (Bytes.padTo logBufferSize [0]) [] 0 = 0 := by decide +kernel
  omega

end File

section Inside

variable {file buffer behind : Bytes} {bound rounds offset inner size : Nat}
  {m : RecoveryManager} {maxLsn : Int}

/-- `DeserializeFrom` where it stays in the buffer. -/
def decodeInside (buffer : Bytes) (inner : Nat) : LogRecord :=
  (LogRecord.deserializeFrom buffer inner).getD .empty

theorem sizeField_of_readLE (behind : Bytes) (h : Bytes.readLE 4 buffer inner = some size) :
    sizeField buffer behind inner = size := by
  unfold Bytes.readLE at h
  split at h
  case isTrue hin =>
    cases h
    rw [sizeField, List.drop_append_of_le_length (by omega),
      List.take_append_of_le_length (by rw [List.length_drop]; omega)]
  case isFalse => cases h

theorem redoWindowAny_of_redoWindow (behind : Bytes) {r : RecoveryManager × Nat × Int}
    (h : redoWindow offset rounds m inner maxLsn = some r) :
    redoWindowAny decodeInside behind offset rounds m inner maxLsn = some r := by
  induction rounds generalizing m inner maxLsn with
  | zero => cases h
  | succ rounds ih =>
      rw [redoWindow] at h
      cases hprobe : Bytes.readLE 4 m.buffer inner with
      | none => simp [hprobe] at h
      | some size =>
          have hsize := sizeField_of_readLE behind hprobe
          rw [redoWindowAny, nextInner, hsize]
          simp only [hprobe, Option.bind_eq_bind, Option.bind_some] at h
          split at h
          case isTrue hstop =>
            rw [if_pos hstop]
            exact h
          case isFalse hgo =>
            cases hlog : LogRecord.deserializeFrom m.buffer inner with
            | none => simp [hlog] at h
            | some log =>
                have hplace : ((offset : Int) + (inner : Int)).toNat = offset + inner := by omega
                simp only [hlog, Option.bind_some] at h
                simp only [if_neg hgo, decodeInside, hlog, Option.getD_some, hplace]
                exact ih h

theorem windowAt_eq (hsmall : file.length < 2 ^ 31) (hoffset : offset < 2 ^ 31 + 2 ^ 30) :
    windowAt file ((offset : Int).bmod (2 ^ 32)) =
      if file.length ≤ offset then none
      else some (Bytes.padTo logBufferSize (file.drop offset)) := by
  have hmod : file.length % 2 ^ 32 = file.length := by omega
  have hsize : LogStorage.getFileSize file = file.length := by
    rw [LogStorage.getFileSize, hmod, if_pos hsmall]
  have hle : file.length ≤ ((offset : Int).bmod (2 ^ 32) % 2 ^ 64).toNat ↔
      file.length ≤ offset := by
    rw [Int.bmod_def]
    omega
  rw [windowAt, hsize]
  by_cases hend : file.length ≤ offset
  · rw [if_pos (hle.mpr hend), if_pos hend]
  · have hsame : (offset : Int).bmod (2 ^ 32) = offset := by
      apply bmod_of_int32
      omega
    rw [if_neg (fun h => hend (hle.mp h)), if_neg hend, hsame, if_pos (by omega), Int.toNat_natCast]

theorem redoLoopAny_of_redoLoop (behind : Bytes) {r : RecoveryManager × Int}
    (hsmall : file.length < 2 ^ 31) (hbuffer : m.buffer.length = logBufferSize) (hoffset : offset < 2 ^ 31 + 2 ^ 30)
    (h : redoLoop file bound rounds m offset maxLsn = some r) :
    redoLoopAny decodeInside behind file bound rounds m ((offset : Int).bmod (2 ^ 32)) maxLsn =
      some r := by
  induction rounds generalizing m offset maxLsn with
  | zero => cases h
  | succ rounds ih =>
      have hwindow := windowAt_eq hsmall hoffset
      rw [redoLoop, readLog_eq hsmall] at h
      by_cases hend : file.length ≤ offset
      · rw [if_pos hend] at h hwindow
        rw [redoLoopAny_end hwindow]
        exact h
      · rw [if_neg hend, List.drop_eq_nil_of_le hbuffer.le, List.append_nil] at h
        rw [if_neg hend] at hwindow
        cases hfirst : redoWindow offset bound
            (m.setBuffer (Bytes.padTo logBufferSize (file.drop offset))) 0 maxLsn with
        | none => simp [hfirst] at h
        | some found =>
            obtain ⟨m', inner, maxLsn'⟩ := found
            have hany := redoWindowAny_of_redoWindow behind hfirst
            have hsame : (offset : Int).bmod (2 ^ 32) = offset := by
              apply bmod_of_int32
              omega
            have hlast := redoWindowAny_last decodeInside behind offset bound
              (m.setBuffer (Bytes.padTo logBufferSize (file.drop offset))) 0 maxLsn
            rw [hany] at hlast
            have hinner : inner ≤ logBufferSize := meets_le (Follow.last_spec hlast.symm).1
            have hkept : m'.buffer.length = logBufferSize := by
              rw [redoWindow_scan, Option.map_eq_some_iff] at hfirst
              obtain ⟨⟨visits, leave⟩, _, hm⟩ := hfirst
              cases hm
              rw [visits_setBuffer, setBuffer_buffer, Bytes.padTo_length]
            rw [logBufferSize] at hinner
            simp only [hfirst, Option.bind_eq_bind, Option.bind_some] at h
            have hrest := ih hkept (by omega) h
            rw [hsame] at hwindow ⊢
            simp only [redoLoopAny, hwindow, hany, Option.bind_eq_bind, Option.bind_some]
            rw [Int.natCast_add] at hrest
            exact hrest

/-- Where `Redo` has a result without leaving the buffer, this is the same loop. -/
theorem redoAny_of_redo (behind : Bytes) {m' : RecoveryManager} (hsmall : file.length < 2 ^ 31)
    (hbuffer : m.buffer.length = logBufferSize) (h : m.redo file bound = some m') :
    redoAny decodeInside behind file bound m = some m' := by
  cases hloop : redoLoop file bound bound m 0 invalidLsn with
  | none => simp [redo, hloop] at h
  | some r =>
      have hany := redoLoopAny_of_redoLoop behind hsmall hbuffer (by decide) hloop
      simp only [redo, hloop, Option.bind_eq_bind, Option.bind_some] at h
      have hzero : ((0 : Nat) : Int).bmod (2 ^ 32) = 0 := rfl
      rw [hzero] at hany
      simp only [redoAny, hany, Option.bind_eq_bind, Option.bind_some]
      exact h

end Inside

end RecoveryManager

end RucDDBS
