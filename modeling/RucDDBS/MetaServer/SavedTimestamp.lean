import RucDDBS.MetaServer.TimestampOrder

/-!
What the file `last_timestamp` promises. `updateTimestamp` is meant to keep the
saved value above the physical part, so that a later session starts above every
timestamp of an earlier one. Three things can break this: the guard of the save
looks at 32 bits of a difference, a save truncates the file before it writes, and
`syncTimestamp` takes a clock that is behind the saved value for one that is far
ahead of it.
-/

namespace RucDDBS

namespace Server

open Oracle

/-- The saved value is above the physical part. -/
def Covered (s : Server) : Prop :=
  s.running = true → ∃ ts, s.dir.lastTimestamp = some ts ∧ s.oracle.physiacl < ts

/-- A step after which the saved value is above the physical part: a start, and an
update that saves, do not overflow; an update that does not save stays below the
value that is in the file. -/
def SavesAhead (s : Server) : OracleAction → Prop
  | .start now => firstPhysical (s.dir.lastTimestamp.getD 0) now ≠ -1
  | .update now =>
      ∀ next, s.oracle.nextPhysical now = some next →
        if s.oracle.saves next = true then next ≠ -1
        else ∃ ts, s.dir.lastTimestamp = some ts ∧ next < ts
  | _ => True

def DirReady (s : Server) : Prop := enterDataDir s.dir = .ok ()

variable {s t : Server} {a : OracleAction}

theorem lt_save_iff (next : UInt64) : next < next + saveTimestampInterval ↔ next ≠ -1 := by
  have hsave : saveTimestampInterval.toNat = 1 := by decide
  have hlast : (-1 : UInt64).toNat = 2 ^ 64 - 1 := by decide
  have hnext := next.toNat_lt
  rw [UInt64.lt_iff_toNat_lt, UInt64.toNat_add, hsave, ne_eq, ← UInt64.toNat_inj, hlast]
  omega

theorem start_ready (h : DirReady s) (now : UInt64) : s.start now = s.opened now := by
  unfold DirReady at h
  simp [start, syncTimestamp, getTimestampFromPath, saveTimeStampToPath, h, bind,
    Except.bind, pure, Except.pure, opened]

theorem update_ready (h : DirReady s) (now : UInt64) :
    s.update now = match s.oracle.nextPhysical now with
      | none => s
      | some next => s.moved next := by
  unfold DirReady at h
  unfold update updateTimestamp
  cases s.oracle.nextPhysical now with
  | none => rfl
  | some next =>
      by_cases hsaves : s.oracle.saves next = true <;>
        simp [hsaves, saveTimeStampToPath, h, bind, Except.bind, pure, Except.pure, moved]

theorem DirReady.step (h : DirReady s) (hstep : Step s a t) : DirReady t := by
  cases hstep.effect with
  | start now =>
      rw [start_ready h]
      exact h
  | update now =>
      rw [update_ready h]
      split
      · exact h
      · unfold moved
        split <;> exact h
  | check c i p l d hc =>
      unfold DirReady
      rw [(s.checkBy_frame c i p l d).1]
      exact h
  | call c => exact h
  | draw c i => exact h
  | stop => exact h
  | stopSaving now => exact h

/-- The saved value stays above the physical part exactly at the steps that save
ahead. -/
theorem covered_step_iff (h : DirReady s) (hs : Covered s) (hstep : Step s a t) :
    Covered t ↔ SavesAhead s a := by
  cases hstep.effect with
  | start now =>
      rw [start_ready h, SavesAhead, ← lt_save_iff]
      simp [Covered, opened]
  | update now hon =>
      rw [update_ready h, SavesAhead]
      cases hnext : s.oracle.nextPhysical now with
      | none => simpa using hs
      | some next =>
          by_cases hsaves : s.oracle.saves next = true
          · simp [Covered, moved, hsaves, hon, lt_save_iff]
          · simp [Covered, moved, hsaves, hon]
  | check c i p l d hc =>
      obtain ⟨hdir, hrunning, horacle, -⟩ := s.checkBy_frame c i p l d
      simpa only [Covered, SavesAhead, hdir, hrunning, horacle, iff_true] using hs
  | call c => exact ⟨fun _ => trivial, fun _ => hs⟩
  | draw c i => exact ⟨fun _ => trivial, fun _ => hs⟩
  | stop => simp [Covered, SavesAhead, halt]
  | stopSaving now => simp [Covered, SavesAhead, halt]

/-- Over every run, from any contents of the file: the states of the run all have
the saved value above the physical part if and only if its steps all save ahead. -/
theorem saved_timestamp_covers_iff (file : Option UInt64) (trace : List OracleAction) :
    Lts.Run (fun s a t => Step s a t ∧ Covered t) (boot ⟨true, true, file⟩) trace t ↔
      Lts.Run (fun s a t => Step s a t ∧ SavesAhead s a) (boot ⟨true, true, file⟩) trace t := by
  have hboot : DirReady (boot ⟨true, true, file⟩) ∧ Covered (boot ⟨true, true, file⟩) :=
    ⟨rfl, by simp [Covered, boot]⟩
  constructor
  · intro hrun
    refine hrun.replace (fun s => DirReady s ∧ Covered s) ?_ hboot
    rintro s a t ⟨hdir, hs⟩ ⟨hstep, ht⟩
    exact ⟨⟨hstep, (covered_step_iff hdir hs hstep).mp ht⟩, hdir.step hstep, ht⟩
  · intro hrun
    refine hrun.replace (fun s => DirReady s ∧ Covered s) ?_ hboot
    rintro s a t ⟨hdir, hs⟩ ⟨hstep, hahead⟩
    have ht := (covered_step_iff hdir hs hstep).mpr hahead
    exact ⟨⟨hstep, ht⟩, hdir.step hstep, ht⟩

/-- A first installation in November 2023: the low 32 bits of the clock, read as a
signed difference from zero, are positive, so no update saves. -/
theorem saved_timestamp_left_behind :
    ¬ ∀ (file : Option UInt64) (trace : List OracleAction) (t : Server),
      Lts.Run Step (boot ⟨true, true, file⟩) trace t → Covered t := by
  intro hall
  have hcovered := hall none [.start 1700000000000, .update 1700000000030] _
    (.cons rfl (.cons rfl (.nil _)))
  obtain ⟨ts, hfile, hlt⟩ := hcovered rfl
  have hts : ts = 1700000000001 := Option.some.inj (hfile.symm.trans rfl)
  rw [hts] at hlt
  exact absurd hlt (by decide)

/-- The condition for restarts. Once there has been a session, a session starts
with a clock that is not behind the saved value and the process does not stop
inside a save; an update that moves the physical part saves it. -/
def KeepsSaved (s : Server) : OracleAction → Prop
  | .start now => s.session = 0 ∨ s.dir.lastTimestamp.getD 0 ≤ now
  | .update now => ∀ next, s.oracle.nextPhysical now = some next → s.oracle.saves next = true
  | .stopSaving _ => s.session = 0
  | _ => True

/-- A step under that condition that moves no number over its range. -/
def SafeStep (s : Server) (a : OracleAction) (t : Server) : Prop :=
  Step s a t ∧ KeepsSaved s a ∧ NoOverflow s a ∧ t.oracle.physiacl.toNat + 1 < 2 ^ 46

/-- What is issued in a session is above what was issued in earlier ones. -/
def IncreasingAcross (issued : List Issued) : Prop :=
  ∀ a ∈ issued, ∀ b ∈ issued, a.session < b.session → b.value ≠ 0 → a.value < b.value

/-- The numbers of one millisecond end at the first number of the next. -/
def floorOf (physical : UInt64) : Nat := physical.toNat * 2 ^ 18

structure Sessions (s : Server) : Prop where
  range : s.oracle.physiacl.toNat + 1 < 2 ^ 46
  saved : 0 < s.session →
    ∃ ts, s.dir.lastTimestamp = some ts ∧ ts.toNat = s.oracle.physiacl.toNat + 1
  on : s.running = true → 0 < s.session
  off : s.running = false → ∀ c, s.callers c = .idle
  pending : ∀ c i p l d, s.callers c = .drawn i p l d →
    p.toNat ≤ s.oracle.physiacl.toNat ∧ 0 < l.toNat ∧
      ∀ e ∈ s.issued, e.session < s.session → e.value.toNat ≤ floorOf p
  earlier : ∀ e ∈ s.issued, e.session < s.session → e.value.toNat ≤ floorOf s.oracle.physiacl
  issued : ∀ e ∈ s.issued, 0 < e.session ∧ e.session ≤ s.session ∧
    e.value.toNat ≤ floorOf s.oracle.physiacl + 2 ^ 18
  across : IncreasingAcross s.issued

theorem floorOf_add_le {p q : UInt64} (h : p.toNat + 1 ≤ q.toNat) :
    floorOf p + 2 ^ 18 ≤ floorOf q := by
  unfold floorOf
  omega

theorem Sessions.boot (dir : DataDir) : Sessions (boot dir) := by
  constructor <;> simp [Server.boot, IncreasingAcross]

theorem firstPhysical_ge {lastTS now : UInt64} (hclock : lastTS ≤ now)
    (hrange : lastTS.toNat < 2 ^ 46) : lastTS.toNat ≤ (firstPhysical lastTS now).toNat := by
  have hguard : updateTimestampGuard.toNat = 1 := by decide
  unfold firstPhysical
  split
  · rw [UInt64.toNat_add, hguard]
    omega
  · exact UInt64.le_iff_toNat_le.mp hclock

theorem save_toNat {next : UInt64} (hrange : next.toNat + 1 < 2 ^ 46) :
    (next + saveTimestampInterval).toNat = next.toNat + 1 := by
  have hsave : saveTimestampInterval.toNat = 1 := by decide
  rw [UInt64.toNat_add, hsave]
  omega

theorem Sessions.halt (h : Sessions s) : Sessions s.halt where
  range := h.range
  saved := h.saved
  on := by simp [Server.halt]
  off := by simp [Server.halt]
  pending := by simp [Server.halt]
  earlier := h.earlier
  issued := h.issued
  across := h.across

theorem Sessions.opened (h : Sessions s) (hoff : s.running = false) {now : UInt64}
    (hclock : s.session = 0 ∨ s.dir.lastTimestamp.getD 0 ≤ now)
    (hrange : (s.opened now).oracle.physiacl.toNat + 1 < 2 ^ 46) : Sessions (s.opened now) := by
  have hbefore (e : Issued) (he : e ∈ s.issued) :
      e.value.toNat ≤ floorOf (s.opened now).oracle.physiacl := by
    obtain ⟨hpos, hle, hvalue⟩ := h.issued e he
    obtain ⟨ts, hts, hnat⟩ := h.saved (Nat.lt_of_lt_of_le hpos hle)
    have hclock' : ts ≤ now := by
      rw [hts] at hclock
      exact hclock.resolve_left (Nat.ne_of_gt (Nat.lt_of_lt_of_le hpos hle))
    have hfirst : ts.toNat ≤ (s.opened now).oracle.physiacl.toNat := by
      unfold Server.opened
      rw [hts]
      exact firstPhysical_ge hclock' (by have := h.range; omega)
    exact Nat.le_trans hvalue (floorOf_add_le (hnat ▸ hfirst))
  refine ⟨hrange, ?_, fun _ => Nat.succ_pos _, by simp [Server.opened], ?_, ?_, ?_, h.across⟩
  · intro _
    exact ⟨_, rfl, save_toNat hrange⟩
  · intro c i p l d hc
    have hidle := h.off hoff c
    exact absurd (hidle.symm.trans hc) (by simp)
  · intro e he _
    exact hbefore e he
  · intro e he
    obtain ⟨hpos, hle, -⟩ := h.issued e he
    refine ⟨hpos, Nat.le_succ_of_le hle, ?_⟩
    exact Nat.le_trans (hbefore e he) (Nat.le_add_right _ _)

theorem Sessions.moved (h : Sessions s) (hon : s.running = true) {now next : UInt64}
    (hnext : s.oracle.nextPhysical now = some next) (hsaves : s.oracle.saves next = true)
    (hrange : next.toNat + 1 < 2 ^ 46) : Sessions (s.moved next) := by
  have hgt := nextPhysical_gt (by have := h.range; omega) hnext
  have hfloor : floorOf s.oracle.physiacl + 2 ^ 18 ≤ floorOf next := floorOf_add_le hgt
  refine ⟨hrange, ?_, h.on, ?_, ?_, ?_, ?_, h.across⟩
  · intro _
    refine ⟨next + saveTimestampInterval, ?_, save_toNat hrange⟩
    simp [Server.moved, hsaves]
  · intro hoff
    exact absurd (hon.symm.trans hoff) (by simp)
  · intro c i p l d hc
    obtain ⟨hp, hl, hold⟩ := h.pending c i p l d hc
    exact ⟨Nat.le_of_lt (Nat.lt_of_le_of_lt hp hgt), hl, hold⟩
  · intro e he hsession
    have hle := h.earlier e he hsession
    exact Nat.le_trans hle (Nat.le_trans (Nat.le_add_right _ _) hfloor)
  · intro e he
    obtain ⟨hpos, hsession, hvalue⟩ := h.issued e he
    exact ⟨hpos, hsession, Nat.le_trans hvalue (Nat.le_trans hfloor (Nat.le_add_right _ _))⟩

theorem Sessions.setCaller (h : Sessions s) {c : CallerId} {pc : Caller} (hon : s.running = true)
    (hpc : ∀ i p l d, pc ≠ .drawn i p l d) : Sessions (s.setCaller c pc) := by
  refine ⟨h.range, h.saved, h.on, ?_, ?_, h.earlier, h.issued, h.across⟩
  · intro hoff
    exact absurd (hon.symm.trans hoff) (by simp)
  · intro c' i p l d hc
    simp only [Server.setCaller, Function.update_apply] at hc
    split at hc
    next => exact absurd hc (hpc i p l d)
    next => exact h.pending c' i p l d hc

theorem Sessions.drawBy (h : Sessions s) {c : CallerId} {i : Nat} (hon : s.running = true)
    (hl : s.oracle.logical.toNat + 1 < 2 ^ 64) : Sessions (s.drawBy c i) := by
  refine ⟨h.range, h.saved, h.on, ?_, ?_, h.earlier, h.issued, h.across⟩
  · intro hoff
    exact absurd (hon.symm.trans hoff) (by simp)
  · intro c' i' p l d hc
    simp only [Server.drawBy, Function.update_apply] at hc
    split at hc
    next =>
      simp only [Caller.drawn.injEq] at hc
      obtain ⟨-, rfl, rfl, -⟩ := hc
      refine ⟨Nat.le_refl _, ?_, h.earlier⟩
      have hone : (1 : UInt64).toNat = 1 := by decide
      rw [UInt64.toNat_add]
      omega
    next => exact h.pending c' i' p l d hc

/-- A value of the running session, between what earlier sessions have issued and
the end of the current millisecond. -/
theorem Sessions.issue (h : Sessions s) (hon : s.running = true) {d : Nat} {value : UInt64}
    (hmax : value.toNat ≤ floorOf s.oracle.physiacl + 2 ^ 18)
    (habove : value ≠ 0 → ∀ e ∈ s.issued, e.session < s.session → e.value < value) :
    Sessions (s.issue d value) := by
  refine ⟨h.range, h.saved, h.on, h.off, ?_, ?_, ?_, ?_⟩
  · intro c i p l d' hc
    obtain ⟨hp, hl, hold⟩ := h.pending c i p l d' hc
    refine ⟨hp, hl, ?_⟩
    intro e he hsession
    simp only [Server.issue, List.mem_append, List.mem_singleton] at he hsession
    obtain he | rfl := he
    · exact hold e he hsession
    · exact absurd hsession (Nat.lt_irrefl _)
  · intro e he hsession
    simp only [Server.issue, List.mem_append, List.mem_singleton] at he hsession
    obtain he | rfl := he
    · exact h.earlier e he hsession
    · exact absurd hsession (Nat.lt_irrefl _)
  · intro e he
    simp only [Server.issue, List.mem_append, List.mem_singleton] at he
    obtain he | rfl := he
    · exact h.issued e he
    · exact ⟨h.on hon, Nat.le_refl _, hmax⟩
  · intro a ha b hb hlt hb0
    simp only [Server.issue, List.mem_append, List.mem_singleton] at ha hb
    obtain hb | rfl := hb
    · obtain ha | rfl := ha
      · exact h.across a ha b hb hlt hb0
      · exact absurd hlt (Nat.not_lt.mpr (h.issued b hb).2.1)
    · obtain ha | rfl := ha
      · exact habove hb0 a ha hlt
      · exact absurd hlt (Nat.lt_irrefl _)

theorem Sessions.checkBy (h : Sessions s) {c : CallerId} {i : Nat} {p l : UInt64} {d : Nat}
    (hon : s.running = true) (hc : s.callers c = .drawn i p l d) :
    Sessions (s.checkBy c i p l d) := by
  obtain ⟨hp, hl, hold⟩ := h.pending c i p l d hc
  have hidle : Sessions (s.setCaller c .idle) := h.setCaller hon (by simp)
  unfold Server.checkBy
  split
  next =>
    split
    next => exact h.setCaller hon (by simp)
    next =>
      refine hidle.issue hon ?_ (fun h0 => absurd rfl h0)
      exact Nat.zero_le _
  next hrej =>
    have hmax : maxLogical.toNat = 2 ^ 18 := by decide
    have hle : l.toNat ≤ 2 ^ 18 := by
      simp only [rejects, Bool.or_eq_true, decide_eq_true_eq, not_or] at hrej
      exact hmax ▸ UInt64.le_iff_toNat_le.mp (UInt64.not_lt.mp hrej.2)
    have hrange : p.toNat + 1 < 2 ^ 46 := by
      have := h.range
      omega
    have hvalue := composeTS_toNat hrange hle
    refine hidle.issue hon ?_ ?_
    · simp only [floorOf, Server.setCaller]
      omega
    · intro _ e he hsession
      have hfloor := hold e he hsession
      apply UInt64.lt_iff_toNat_lt.mpr
      simp only [floorOf] at hfloor
      omega

theorem SafeStep.sessions (hstep : SafeStep s a t) (h : Sessions s) : Sessions t := by
  obtain ⟨hstep, hkeeps, hno, hrange⟩ := hstep
  have hon (c : CallerId) (hc : s.callers c ≠ .idle) : s.running = true := by
    by_contra hoff
    exact hc (h.off (Bool.not_eq_true _ ▸ hoff) c)
  cases hstep.effect with
  | start now hoff =>
      obtain heq | heq := s.start_cases now
      · rw [heq]
        exact h
      · rw [heq] at hrange ⊢
        exact h.opened hoff hkeeps hrange
  | update now hrunning =>
      obtain heq | ⟨-, heq⟩ | ⟨next, hnext, heq⟩ := s.update_cases now
      · rw [heq]
        exact h.halt
      · rw [heq]
        exact h
      · rw [heq] at hrange ⊢
        exact h.moved hrunning hnext (hkeeps next hnext) hrange
  | call c hrunning => exact h.setCaller hrunning (by simp)
  | draw c i hc => exact h.drawBy (hon c (by simp [hc])) (hno c rfl)
  | check c i p l d hc => exact h.checkBy (hon c (by simp [hc])) hc
  | stop => exact h.halt
  | stopSaving now =>
      have hhalt := h.halt
      refine ⟨hhalt.range, ?_, hhalt.on, hhalt.off, hhalt.pending, hhalt.earlier, hhalt.issued,
        hhalt.across⟩
      intro hpos
      exact absurd hkeeps (Nat.ne_of_gt hpos)

/-- Over every sequence of sessions that keeps the condition, whatever the clock
reads and wherever a session stops: a timestamp is above those of all earlier
sessions. -/
theorem timestamps_increase_across_restarts {dir : DataDir} {trace : List OracleAction}
    (hrun : Lts.Run SafeStep (boot dir) trace t) : IncreasingAcross t.issued := by
  have ht := hrun.preserves Sessions (fun s a t hstep h => hstep.sessions h) (Sessions.boot dir)
  exact ht.across

/-- The second session starts with the clock on the saved value. -/
theorem timestamps_increase_across_one_restart :
    ∃ t : Server, t.issued = [⟨1, 0, composeTS 1005 1⟩, ⟨2, 0, composeTS 1007 1⟩] ∧
      IncreasingAcross t.issued := by
  have hsaves (next : UInt64) (h : Oracle.nextPhysical ⟨0, 1000, 0⟩ 1005 = some next) :
      Oracle.saves ⟨0, 1000, 0⟩ next = true := by
    obtain rfl : 1005 = next := Option.some.inj (Eq.trans (by decide) h)
    decide
  refine ⟨_, ?_, @timestamps_increase_across_restarts _ ⟨true, true, none⟩
    [.start 1000, .update 1005, .call 0, .draw 0, .check 0, .stop,
      .start 1006, .call 0, .draw 0, .check 0]
    (.cons ⟨rfl, .inl rfl, by intro _ _; decide, by decide⟩
      (.cons ⟨rfl, hsaves, by intro _ _; decide, by decide⟩
      (.cons ⟨rfl, trivial, by intro _ _; decide, by decide⟩
      (.cons ⟨rfl, trivial, by intro _ _; decide, by decide⟩
      (.cons ⟨rfl, trivial, by intro _ _; decide, by decide⟩
      (.cons ⟨rfl, trivial, by intro _ _; decide, by decide⟩
      (.cons ⟨rfl, .inr (by decide), by intro _ _; decide, by decide⟩
      (.cons ⟨rfl, trivial, by intro _ _; decide, by decide⟩
      (.cons ⟨rfl, trivial, by intro _ _; decide, by decide⟩
      (.cons ⟨rfl, trivial, by intro _ _; decide, by decide⟩ (.nil _)))))))))))⟩
  rfl

/-- The clock has gone back by two milliseconds while the server was down: the
unsigned difference is large, and the session starts on the old time. -/
theorem timestamps_decrease_across_restart :
    ¬ ∀ (dir : DataDir) (trace : List OracleAction) (t : Server),
      Lts.Run Step (boot dir) trace t → IncreasingAcross t.issued := by
  intro hall
  have hinc := hall ⟨true, true, none⟩
    [.start 1000, .call 0, .draw 0, .check 0, .stop, .start 999, .call 0, .draw 0, .check 0] _
    (.cons rfl (.cons rfl (.cons rfl (.cons rfl (.cons rfl (.cons rfl (.cons rfl (.cons rfl
      (.cons rfl (.nil _))))))))))
  have hlt := hinc ⟨1, 0, composeTS 1000 1⟩ (List.mem_cons_self ..) ⟨2, 0, composeTS 999 1⟩
    (List.mem_cons_of_mem _ (List.mem_cons_self ..)) (by decide) (by decide)
  exact absurd hlt (by decide)

end Server

end RucDDBS
