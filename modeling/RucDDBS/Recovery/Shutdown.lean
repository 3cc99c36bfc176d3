import RucDDBS.Recovery.LogBuffer

/-!
The end of a `LogManager`. The destructor clears `enable_flushing_` and joins the flush
thread, which looks at the flag between two rounds only. Behind the look it makes one more
round, with everything that is in the log buffer when it swaps; a record that is appended
while the thread writes, or before its first look, is then in no round.
-/

namespace RucDDBS

/-- Where the loop of the flush thread is: at its test, behind it, or left. -/
inductive LoopPc where
  | test | inside | exited
  deriving DecidableEq, Repr

/-- A log manager with the condition of its loop. -/
structure StoppableLog where
  log : BufferedLog
  enableFlushing : Bool
  loop : LoopPc

inductive StopAction where
  | log (a : LogAction)
  /-- the test of the loop -/
  | test
  /-- the wait ends after `LOG_TIMEOUT` and the buffer is empty -/
  | idle
  /-- `StopFlushThread` clears the flag -/
  | stop
  deriving DecidableEq, Repr

namespace StoppableLog

def new (file logBuffer flushBuffer : Bytes) : StoppableLog :=
  ⟨.new file logBuffer flushBuffer, true, .test⟩

def step (s : StoppableLog) : StopAction → Option StoppableLog
  | .log a =>
      if a = .swap ∧ s.loop ≠ .inside then none
      else (s.log.step a).map fun log =>
        { s with log := log, loop := if a = .clear then .test else s.loop }
  | .test =>
      if s.loop = .test then
        some { s with loop := if s.enableFlushing = true then .inside else .exited }
      else none
  | .idle =>
      if s.loop = .inside ∧ s.log.flusher = .waiting ∧ s.log.logBufferWriteOffset = 0 then
        some { s with loop := .test }
      else none
  | .stop => some { s with enableFlushing := false }

/-- A step of a log manager that is destroyed only behind the last return of an append. -/
def Step (s : StoppableLog) (a : StopAction) (t : StoppableLog) : Prop :=
  s.step a = some t ∧
    (∀ i r, a = .log (.append i r) → s.enableFlushing = true ∧ r.Built ∧ r.size < 2 ^ 31) ∧
      (a = .stop → ∀ i, s.log.waiting i = none)

/-- What a step can do. -/
inductive Effect (s : StoppableLog) : StopAction → StoppableLog → Prop
  | log (a : LogAction) (log : BufferedLog) (hstep : s.log.SizedStep a log)
      (happend : ∀ i r, a = .append i r → s.enableFlushing = true)
      (hswap : a = .swap → s.loop = .inside) :
      Effect s (.log a)
        { s with log := log, loop := if a = .clear then .test else s.loop }
  | goOn (hloop : s.loop = .test) (hflag : s.enableFlushing = true) :
      Effect s .test { s with loop := .inside }
  | exit (hloop : s.loop = .test) (hflag : s.enableFlushing = false) :
      Effect s .test { s with loop := .exited }
  | idle (hloop : s.loop = .inside) (hpc : s.log.flusher = .waiting)
      (hempty : s.log.logBufferWriteOffset = 0) : Effect s .idle { s with loop := .test }
  | stop (hreturned : ∀ i, s.log.waiting i = none) :
      Effect s .stop { s with enableFlushing := false }

theorem Step.effect {s t : StoppableLog} {a : StopAction} (h : Step s a t) : Effect s a t := by
  obtain ⟨hstep, happend, hstop⟩ := h
  cases a with
  | log a =>
      simp only [step, Option.ite_none_left_eq_some, Option.map_eq_some_iff] at hstep
      obtain ⟨hswap, log, hlog, rfl⟩ := hstep
      refine .log a log ⟨hlog, ?_⟩ ?_ ?_
      · rintro i r rfl
        exact (happend i r rfl).2
      · rintro i r rfl
        exact (happend i r rfl).1
      · intro heq
        by_contra hloop
        exact hswap ⟨heq, hloop⟩
  | test =>
      simp only [step, Option.ite_none_right_eq_some, Option.some.injEq] at hstep
      obtain ⟨hloop, rfl⟩ := hstep
      by_cases hflag : s.enableFlushing = true
      · rw [if_pos hflag]
        exact .goOn hloop hflag
      · rw [if_neg hflag]
        exact .exit hloop (Bool.not_eq_true _ ▸ hflag)
  | idle =>
      simp only [step, Option.ite_none_right_eq_some, Option.some.injEq] at hstep
      obtain ⟨⟨hloop, hpc, hempty⟩, rfl⟩ := hstep
      exact .idle hloop hpc hempty
  | stop =>
      obtain rfl := Option.some.inj hstep
      exact .stop (hstop rfl)

/-- Outside of its loop body the flush thread is in no round. -/
structure Sound (file₀ : Bytes) (s : StoppableLog) : Prop where
  streams : s.log.Streams file₀
  numbered : s.log.Numbered
  loop : s.loop ≠ .inside → s.log.flusher = .waiting

/-- The thread will still swap, or there is nothing to swap. -/
def Rescued (s : StoppableLog) : Prop :=
  (s.loop = .inside ∧ s.log.flusher = .waiting) ∨ s.log.logBufferWriteOffset = 0

/-- The flag is cleared, and no append is in progress. -/
def Stopped (s : StoppableLog) : Prop :=
  s.enableFlushing = false ∧ ∀ i, s.log.waiting i = none

section Steps

variable {file₀ : Bytes} {s t : StoppableLog} {a : StopAction}

/-- A step of a round that has been begun is made in the loop body. -/
theorem Sound.inside (h : Sound file₀ s) (hpc : s.log.flusher ≠ .waiting) : s.loop = .inside := by
  by_contra hloop
  exact hpc (h.loop hloop)

theorem Step.sound (hstep : Step s a t) (h : Sound file₀ s) : Sound file₀ t := by
  cases hstep.effect with
  | log b log hlog happend hswap =>
      obtain ⟨hstreams, hnumbered⟩ := hlog.keeps h.streams h.numbered
      refine ⟨hstreams, hnumbered, ?_⟩
      cases hlog.1.effect with
      | park i r hfull => exact h.loop
      | append i r hroom => exact fun hloop => (s.log.copyRecord_flusher r).trans (h.loop hloop)
      | resume i r hwaits hroom =>
          exact fun hloop => (s.log.copyRecord_flusher r).trans (h.loop hloop)
      | flush => exact h.loop
      | swap hpc hsome => exact fun hloop => absurd (hswap rfl) hloop
      | write lsn hpc => exact fun hloop => absurd (h.inside (by simp [hpc])) hloop
      | store lsn hpc => exact fun hloop => absurd (h.inside (by simp [hpc])) hloop
      | clear hpc => exact fun _ => rfl
  | goOn hloop => exact ⟨h.streams, h.numbered, fun hne => absurd rfl hne⟩
  | exit hloop => exact ⟨h.streams, h.numbered, fun _ => h.loop (by simp [hloop])⟩
  | idle hloop hpc => exact ⟨h.streams, h.numbered, fun _ => hpc⟩
  | stop => exact ⟨h.streams, h.numbered, h.loop⟩

/-- Behind the stop the thread neither gains nor loses its last swap. -/
theorem Step.rescued (hstep : Step s a t) (hstopped : s.Stopped) :
    t.Stopped ∧ (t.Rescued ↔ s.Rescued) := by
  obtain ⟨hflag, hreturned⟩ := hstopped
  cases hstep.effect with
  | log b log hlog happend hswap =>
      -- no append runs any more, and a round outside of its wait has no swap to come
      cases hlog.1.effect with
      | park i r hfull =>
          rw [happend i r rfl] at hflag
          cases hflag
      | append i r hroom =>
          rw [happend i r rfl] at hflag
          cases hflag
      | resume i r hwaits hroom =>
          rw [hreturned i] at hwaits
          cases hwaits
      | flush => exact ⟨⟨hflag, hreturned⟩, Iff.rfl⟩
      | swap hpc hsome =>
          exact ⟨⟨hflag, hreturned⟩, iff_of_true (.inr rfl) (.inl ⟨hswap rfl, hpc⟩)⟩
      | write lsn hpc => exact ⟨⟨hflag, hreturned⟩, by simp [Rescued, hpc]⟩
      | store lsn hpc => exact ⟨⟨hflag, hreturned⟩, by simp [Rescued, hpc]⟩
      | clear hpc => exact ⟨⟨hflag, hreturned⟩, by simp [Rescued, hpc]⟩
  | goOn hloop htrue =>
      rw [htrue] at hflag
      cases hflag
  | exit hloop => exact ⟨⟨hflag, hreturned⟩, by simp [Rescued, hloop]⟩
  | idle hloop hpc hempty => exact ⟨⟨hflag, hreturned⟩, by simp [Rescued, hempty]⟩
  | stop => exact ⟨⟨rfl, hreturned⟩, Iff.rfl⟩

end Steps

section Runs

variable {file logBuffer flushBuffer : Bytes} {before after : List StopAction}
  {s stopped t : StoppableLog}

theorem sound_new (hlog : logBuffer.length = logBufferSize)
    (hflush : flushBuffer.length = logBufferSize) :
    Sound file (new file logBuffer flushBuffer) where
  streams := BufferedLog.streams_new file logBuffer flushBuffer hlog hflush
  numbered := BufferedLog.numbered_new file logBuffer flushBuffer
  loop := fun _ => rfl

theorem run_sound {trace : List StopAction} (h : Sound file s) (hrun : Lts.Run Step s trace t) :
    Sound file t :=
  hrun.preserves (Sound file) (fun _ _ _ hstep hs => hstep.sound hs) h

theorem run_rescued {trace : List StopAction} (hstopped : s.Stopped)
    (hrun : Lts.Run Step s trace t) : t.Rescued ↔ s.Rescued := by
  have hboth := hrun.preserves (fun u => u.Stopped ∧ (u.Rescued ↔ s.Rescued))
    (fun _ _ _ hstep hu => by
      obtain ⟨hnext, hiff⟩ := hstep.rescued hu.1
      exact ⟨hnext, hiff.trans hu.2⟩) ⟨hstopped, Iff.rfl⟩
  exact hboth.2

/-- When the flush thread has been joined, every appended record is in the file exactly if, as
the flag was cleared, the thread was behind its test and had not swapped yet, or the log buffer
was empty. -/
theorem shutdown_flushes_iff (hlog : logBuffer.length = logBufferSize)
    (hflush : flushBuffer.length = logBufferSize)
    (hbefore : Lts.Run Step (new file logBuffer flushBuffer) before s)
    (hstop : Step s .stop stopped) (hafter : Lts.Run Step stopped after t)
    (hjoined : t.loop = .exited) :
    t.log.file = file ++ encodeLog t.log.appended ↔
      (s.loop = .inside ∧ s.log.flusher = .waiting) ∨ s.log.logBufferWriteOffset = 0 := by
  have hs := run_sound (sound_new hlog hflush) hbefore
  have ht := run_sound (hstop.sound hs) hafter
  have hreturned := hstop.2.2 rfl
  obtain rfl := Option.some.inj hstop.1
  have hstopped : Stopped { s with enableFlushing := false } := ⟨rfl, hreturned⟩
  have hrescued := run_rescued hstopped hafter
  rw [ht.streams.file_eq_iff (ht.loop (by simp [hjoined])), ← ht.streams.offset_eq_zero_iff]
  simpa [Rescued, hjoined] using hrescued

/-- The first record, appended while the thread is at `loop`. -/
theorem firstAppend (loop : LoopPc) (hlog : logBuffer.length = logBufferSize) :
    ∃ log : BufferedLog, Step ⟨.new file logBuffer flushBuffer, true, loop⟩
        (.log (.append 0 (.ofTxn 1 invalidLsn .begin))) ⟨log, true, loop⟩ ∧
      log.appended.length = 1 ∧ log.flusher = .waiting ∧ 0 < log.logBufferWriteOffset ∧
      log.file = file ∧ ∀ i, log.waiting i = none := by
  have hr : LogRecord.Built (.ofTxn 1 invalidLsn .begin) := .ofTxn 1 invalidLsn .begin (.inl rfl)
  obtain ⟨log, happend, happended, hpc, hoffset, -, hfile, hwaiting⟩ :=
    @BufferedLog.firstAppend file logBuffer flushBuffer _ hlog hr (by decide)
  refine ⟨log, ⟨?_, ?_, by simp⟩, by simp [happended], hpc, ?_, hfile, fun i => by rw [hwaiting]⟩
  · have hlogged : (BufferedLog.new file logBuffer flushBuffer).step
        (.append 0 (.ofTxn 1 invalidLsn .begin)) = some log := happend
    simp [step, hlogged]
  · rintro i r heq
    cases heq
    exact ⟨rfl, hr, by decide⟩
  · rw [hoffset]
    decide

/-- The record is appended behind the test, so that the last round writes it. -/
theorem lateStop_flushes :
    ∃ t : StoppableLog, t.loop = .exited ∧ t.log.appended.length = 1 ∧
      t.log.file = encodeLog t.log.appended := by
  obtain ⟨buffer, hbuffer⟩ := BufferedLog.exists_buffer
  obtain ⟨log, happend, hlength, hpc, hsome, -, hreturned⟩ :=
    @firstAppend [] buffer buffer .inside hbuffer
  have htest : Step (new [] buffer buffer) .test ⟨.new [] buffer buffer, true, .inside⟩ :=
    ⟨rfl, by simp, by simp⟩
  have hstop : Step ⟨log, true, .inside⟩ .stop ⟨log, false, .inside⟩ :=
    ⟨rfl, by simp, fun _ => hreturned⟩
  have hswap : Step ⟨log, false, .inside⟩ (.log .swap) ⟨{ log.swapBuffer with
      flusher := .swapped (wrapLsn (log.nextLsn - 1))
      flushLsn := wrapLsn (log.nextLsn - 1) }, false, .inside⟩ := by
    refine ⟨?_, by simp, by simp⟩
    simp [step, BufferedLog.step, hpc, hsome]
  obtain ⟨t, hafter, hjoined, hsame⟩ : ∃ t, Lts.Run Step ⟨log, false, .inside⟩
      [.log .swap, .log .write, .log .store, .log .clear, .test] t ∧ t.loop = .exited ∧
        t.log.appended = log.appended :=
    ⟨_, .cons hswap (.cons ⟨rfl, by simp, by simp⟩ (.cons ⟨rfl, by simp, by simp⟩
      (.cons ⟨rfl, by simp, by simp⟩ (.single ⟨rfl, by simp, by simp⟩)))), rfl, rfl⟩
  refine ⟨t, hjoined, by rw [hsame, hlength], ?_⟩
  exact (shutdown_flushes_iff hbuffer hbuffer (.cons htest (.single happend)) hstop hafter
    hjoined).mpr (.inl ⟨rfl, hpc⟩)

/-- The log manager is destroyed before its thread has come to the first test. -/
theorem earlyStop_loses_record :
    ∃ (logBuffer flushBuffer : Bytes) (t : StoppableLog),
      Lts.Run Step (new [] logBuffer flushBuffer)
        [.log (.append 0 (.ofTxn 1 invalidLsn .begin)), .stop, .test] t ∧
      t.loop = .exited ∧ t.log.appended.length = 1 ∧ t.log.file = [] := by
  obtain ⟨buffer, hbuffer⟩ := BufferedLog.exists_buffer
  obtain ⟨log, happend, hlength, -, -, hfile, hreturned⟩ :=
    @firstAppend [] buffer buffer .test hbuffer
  have hstop : Step ⟨log, true, .test⟩ .stop ⟨log, false, .test⟩ :=
    ⟨rfl, by simp, fun _ => hreturned⟩
  have hexit : Step ⟨log, false, .test⟩ .test ⟨log, false, .exited⟩ := ⟨rfl, by simp, by simp⟩
  exact ⟨buffer, buffer, _, .cons happend (.cons hstop (.single hexit)), rfl, hlength, hfile⟩

end Runs

end StoppableLog

end RucDDBS
