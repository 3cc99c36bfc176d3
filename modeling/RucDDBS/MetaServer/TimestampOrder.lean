import RucDDBS.MetaServer.Oracle

/-!
The timestamps of one session. Every critical section of `getTimeStamp` draws a
pair that is lexicographically above all pairs drawn before; the physical part
moves only forwards, and the logical part is set back only when it moves. A
logical part of exactly `maxLogical` spills into the physical bits of the
composed number, and lands between the numbers of two physical parts.
-/

namespace RucDDBS

namespace Oracle

theorem toInt_toInt64 (x : UInt64) : x.toInt64.toInt = (x.toNat : Int).bmod (2 ^ 64) :=
  BitVec.toInt_eq_toNat_bmod x.toBitVec

theorem physiacl_lt_of_jetLag {physiacl now : UInt64} (hp : physiacl.toNat < 2 ^ 46)
    (hlag : (now - physiacl).toInt64 > updateTimestampGuard.toInt64) :
    physiacl.toNat < now.toNat := by
  have hguard : updateTimestampGuard.toInt64.toInt = 1 := by decide
  have hlt := Int64.lt_iff_toInt_lt.mp hlag
  rw [hguard, toInt_toInt64, UInt64.toNat_sub, Int.bmod] at hlt
  have hnow := now.toNat_lt
  split at hlt <;> omega

/-- An update moves the physical part forwards. -/
theorem nextPhysical_gt {o : Oracle} {now next : UInt64} (hp : o.physiacl.toNat < 2 ^ 46)
    (hnext : o.nextPhysical now = some next) : o.physiacl.toNat < next.toNat := by
  unfold nextPhysical at hnext
  split at hnext
  next hlag =>
    obtain rfl := Option.some.inj hnext
    exact physiacl_lt_of_jetLag hp hlag
  next =>
    split at hnext
    next =>
      obtain rfl := Option.some.inj hnext
      rw [UInt64.toNat_add]
      have hone : (1 : UInt64).toNat = 1 := by decide
      omega
    next => cases hnext

theorem composeTS_toNat {physical logical : UInt64} (hp : physical.toNat + 1 < 2 ^ 46)
    (hl : logical.toNat ≤ 2 ^ 18) :
    (composeTS physical logical).toNat = physical.toNat * 2 ^ 18 + logical.toNat := by
  have hshift : (physical <<< physicalShiftBits).toNat = physical.toNat * 2 ^ 18 := by
    have hbits : physicalShiftBits.toNat % 64 = 18 := by decide
    rw [UInt64.toNat_shiftLeft, hbits, Nat.shiftLeft_eq]
    omega
  unfold composeTS
  rw [UInt64.toNat_add, hshift]
  omega

/-- What an update that does not fail does. -/
theorem updateTimestamp_cases {o o' : Oracle} {dir dir' : DataDir} {now : UInt64}
    (h : o.updateTimestamp dir now = .ok (o', dir')) :
    (o.nextPhysical now = none ∧ o' = o ∧ dir' = dir) ∨
      ∃ next, o.nextPhysical now = some next ∧ o' = { o with physiacl := next, logical := 0 } ∧
        dir' = if o.saves next = true then
          { dir with lastTimestamp := some (next + saveTimestampInterval) } else dir := by
  unfold updateTimestamp at h
  cases hnext : o.nextPhysical now with
  | none =>
      rw [hnext] at h
      cases h
      exact .inl ⟨rfl, rfl, rfl⟩
  | some next =>
      right
      refine ⟨next, rfl, ?_⟩
      rw [hnext] at h
      cases hsaves : o.saves next <;> cases hdir : enterDataDir dir <;>
        simp_all [saveTimeStampToPath, bind, Except.bind, pure, Except.pure]

end Oracle

namespace Server

open Oracle

/-- The state behind a start that does not fail. -/
def opened (s : Server) (now : UInt64) : Server :=
  let lastTS := s.dir.lastTimestamp.getD 0
  { s with
    dir := { s.dir with lastTimestamp := some (firstPhysical lastTS now + saveTimestampInterval) }
    running := true
    oracle := ⟨lastTS, firstPhysical lastTS now, 0⟩
    session := s.session + 1
    draws := [] }

theorem start_cases (s : Server) (now : UInt64) : s.start now = s ∨ s.start now = s.opened now := by
  unfold start
  cases hdir : enterDataDir s.dir with
  | error e =>
      left
      simp [syncTimestamp, getTimestampFromPath, hdir, bind, Except.bind]
  | ok _ =>
      right
      simp [syncTimestamp, getTimestampFromPath, saveTimeStampToPath, hdir, bind, Except.bind,
        pure, Except.pure, opened]

/-- The state behind an update that moves the physical part to `next`. -/
def moved (s : Server) (next : UInt64) : Server :=
  { s with
    oracle := { s.oracle with physiacl := next, logical := 0 }
    dir := if s.oracle.saves next = true then
      { s.dir with lastTimestamp := some (next + saveTimestampInterval) } else s.dir }

/-- An update fails and ends the process, does nothing, or moves the physical
part. -/
theorem update_cases (s : Server) (now : UInt64) :
    s.update now = s.halt ∨ (s.oracle.nextPhysical now = none ∧ s.update now = s) ∨
      ∃ next, s.oracle.nextPhysical now = some next ∧ s.update now = s.moved next := by
  unfold update
  cases hupdate : s.oracle.updateTimestamp s.dir now with
  | error e => exact .inl rfl
  | ok res =>
      obtain ⟨oracle, dir⟩ := res
      right
      obtain ⟨hnone, rfl, rfl⟩ | ⟨next, hnext, rfl, rfl⟩ := updateTimestamp_cases hupdate
      · exact .inl ⟨hnone, rfl⟩
      · exact .inr ⟨next, hnext, rfl⟩

theorem checkBy_frame (s : Server) (c : CallerId) (i : Nat) (p l : UInt64) (d : Nat) :
    (s.checkBy c i p l d).dir = s.dir ∧ (s.checkBy c i p l d).running = s.running ∧
      (s.checkBy c i p l d).oracle = s.oracle ∧ (s.checkBy c i p l d).draws = s.draws ∧
      (s.checkBy c i p l d).session = s.session := by
  unfold checkBy
  split
  · split <;> exact ⟨rfl, rfl, rfl, rfl, rfl⟩
  · exact ⟨rfl, rfl, rfl, rfl, rfl⟩

/-- The lexicographic order of drawn pairs, as an order of numbers. -/
def rank (pair : UInt64 × UInt64) : Nat := pair.1.toNat * 2 ^ 64 + pair.2.toNat

/-- What has been drawn is ordered and lies at or below the current pair. -/
structure DrawsOrdered (s : Server) : Prop where
  ordered : s.draws.Pairwise (fun first second => rank first < rank second)
  below : ∀ pair ∈ s.draws, rank pair ≤ rank (s.oracle.physiacl, s.oracle.logical)
  sound : ∀ pair ∈ s.draws, pair.1.toNat < 2 ^ 45 ∧ 0 < pair.2.toNat

/-- Callers and returned values belong to draws, and no draw is returned twice. -/
structure Tracked (s : Server) : Prop where
  pending : ∀ c i p l d, s.callers c = .drawn i p l d → s.draws[d]? = some (p, l)
  apart : ∀ c c' i i' p p' l l' d, s.callers c = .drawn i p l d →
    s.callers c' = .drawn i' p' l' d → c = c'
  issued : ∀ e ∈ s.issued, ∃ p l, s.draws[e.draw]? = some (p, l) ∧
    (e.value = 0 ∨ l ≤ maxLogical ∧ e.value = composeTS p l)
  spent : ∀ e ∈ s.issued, ∀ c i p l, s.callers c ≠ .drawn i p l e.draw
  nodup : s.issued.Pairwise (fun a b => a.draw ≠ b.draw)

/-- A step of a session, with the physical part below 2^45. -/
def SessionStep (s : Server) (a : OracleAction) (t : Server) : Prop :=
  Step s a t ∧ (∀ now, a ≠ .start now) ∧ t.oracle.physiacl.toNat < 2 ^ 45

/-- The logical counter has 64 bits. -/
def NoOverflow (s : Server) (a : OracleAction) : Prop :=
  ∀ c, a = .draw c → s.oracle.logical.toNat + 1 < 2 ^ 64

/-- The values other than zero are pairwise distinct and ordered as their critical
sections are. -/
def Increasing (issued : List Issued) : Prop :=
  (issued.filter (·.value ≠ 0)).Pairwise (fun a b => a.value ≠ b.value) ∧
    ∀ a ∈ issued, ∀ b ∈ issued, a.value ≠ 0 → b.value ≠ 0 → a.draw < b.draw →
      a.value < b.value

section Draws

variable {s t : Server}

theorem DrawsOrdered.of_eq (h : DrawsOrdered s) (hdraws : t.draws = s.draws)
    (horacle : rank (s.oracle.physiacl, s.oracle.logical) ≤
      rank (t.oracle.physiacl, t.oracle.logical)) : DrawsOrdered t := by
  refine ⟨hdraws ▸ h.ordered, ?_, hdraws ▸ h.sound⟩
  intro pair hpair
  rw [hdraws] at hpair
  exact Nat.le_trans (h.below pair hpair) horacle

theorem DrawsOrdered.update (h : DrawsOrdered s) (now : UInt64)
    (hp : s.oracle.physiacl.toNat < 2 ^ 45) : DrawsOrdered (s.update now) := by
  obtain heq | ⟨-, heq⟩ | ⟨next, hnext, heq⟩ := s.update_cases now <;> rw [heq]
  · exact h.of_eq rfl (Nat.le_refl _)
  · exact h
  · have hgt := nextPhysical_gt (by omega) hnext
    have hlogical := s.oracle.logical.toNat_lt
    refine h.of_eq rfl ?_
    simp only [rank, moved]
    omega

theorem DrawsOrdered.drawBy (h : DrawsOrdered s) (c : CallerId) (i : Nat)
    (hp : s.oracle.physiacl.toNat < 2 ^ 45) (hl : s.oracle.logical.toNat + 1 < 2 ^ 64) :
    DrawsOrdered (s.drawBy c i) := by
  have hsucc : (s.oracle.logical + 1).toNat = s.oracle.logical.toNat + 1 := by
    have hone : (1 : UInt64).toNat = 1 := by decide
    rw [UInt64.toNat_add]
    omega
  have hrank : rank (s.oracle.physiacl, s.oracle.logical) <
      rank (s.oracle.physiacl, s.oracle.logical + 1) := by
    simp only [rank, hsucc]
    omega
  constructor
  · simp only [Server.drawBy, List.pairwise_append]
    refine ⟨h.ordered, List.pairwise_singleton _ _, ?_⟩
    intro first hfirst second hsecond
    rw [List.mem_singleton.mp hsecond]
    exact Nat.lt_of_le_of_lt (h.below first hfirst) hrank
  · intro pair hpair
    simp only [Server.drawBy, List.mem_append, List.mem_singleton] at hpair ⊢
    obtain hold | rfl := hpair
    · exact Nat.le_trans (h.below pair hold) (Nat.le_of_lt hrank)
    · exact Nat.le_refl _
  · intro pair hpair
    simp only [Server.drawBy, List.mem_append, List.mem_singleton] at hpair
    obtain hold | rfl := hpair
    · exact h.sound pair hold
    · exact ⟨hp, by rw [hsucc]; omega⟩

theorem DrawsOrdered.checkBy (h : DrawsOrdered s) (c : CallerId) (i : Nat) (p l : UInt64)
    (d : Nat) : DrawsOrdered (s.checkBy c i p l d) := by
  obtain ⟨-, -, horacle, hdraws, -⟩ := s.checkBy_frame c i p l d
  exact h.of_eq hdraws (Nat.le_of_eq (by rw [horacle]))

theorem Tracked.setCaller (h : Tracked s) (c : CallerId) (pc : Caller)
    (hpc : ∀ i p l d, pc ≠ .drawn i p l d) : Tracked (s.setCaller c pc) := by
  have hcaller (c' i p l d) (hc : (s.setCaller c pc).callers c' = .drawn i p l d) :
      s.callers c' = .drawn i p l d := by
    by_cases hcc : c' = c
    · subst hcc
      simp only [Server.setCaller, Function.update_self] at hc
      exact absurd hc (hpc i p l d)
    · simpa [Server.setCaller, Function.update_of_ne hcc] using hc
  refine ⟨?_, ?_, h.issued, ?_, h.nodup⟩
  · intro c' i p l d hc
    exact h.pending c' i p l d (hcaller c' i p l d hc)
  · intro c₁ c₂ i i' p p' l l' d h₁ h₂
    exact h.apart c₁ c₂ i i' p p' l l' d (hcaller _ _ _ _ _ h₁) (hcaller _ _ _ _ _ h₂)
  · intro e he c' i p l hc
    exact h.spent e he c' i p l (hcaller _ _ _ _ _ hc)

theorem Tracked.halt (h : Tracked s) : Tracked s.halt := by
  refine ⟨?_, ?_, h.issued, ?_, h.nodup⟩ <;> simp [Server.halt]

theorem Tracked.issue (h : Tracked s) {d : Nat} {p l value : UInt64}
    (hdraw : s.draws[d]? = some (p, l)) (hfree : ∀ c i p l, s.callers c ≠ .drawn i p l d)
    (hnew : ∀ e ∈ s.issued, e.draw ≠ d)
    (hvalue : value = 0 ∨ l ≤ maxLogical ∧ value = composeTS p l) : Tracked (s.issue d value) := by
  refine ⟨h.pending, h.apart, ?_, ?_, ?_⟩
  · intro e he
    simp only [Server.issue, List.mem_append, List.mem_singleton] at he
    obtain hold | rfl := he
    · exact h.issued e hold
    · exact ⟨p, l, hdraw, hvalue⟩
  · intro e he
    simp only [Server.issue, List.mem_append, List.mem_singleton] at he
    obtain hold | rfl := he
    · exact h.spent e hold
    · exact hfree
  · simp only [Server.issue, List.pairwise_append]
    refine ⟨h.nodup, List.pairwise_singleton _ _, ?_⟩
    intro a ha b hb
    rw [List.mem_singleton.mp hb]
    exact hnew a ha

theorem Tracked.drawBy (h : Tracked s) (c : CallerId) (i : Nat) : Tracked (s.drawBy c i) := by
  have hkeep (d : Nat) (pair) (hd : s.draws[d]? = some pair) :
      (s.drawBy c i).draws[d]? = some pair := by
    have hlt : d < s.draws.length := (List.getElem?_eq_some_iff.mp hd).1
    simp only [Server.drawBy]
    rw [List.getElem?_append_left hlt]
    exact hd
  have hlt (c' i' p l d) (hc : s.callers c' = .drawn i' p l d) : d < s.draws.length :=
    (List.getElem?_eq_some_iff.mp (h.pending c' i' p l d hc)).1
  refine ⟨?_, ?_, ?_, ?_, h.nodup⟩
  · intro c' i' p l d hc
    by_cases hcc : c' = c
    · subst hcc
      simp only [Server.drawBy, Function.update_self, Caller.drawn.injEq] at hc
      obtain ⟨-, rfl, rfl, rfl⟩ := hc
      simp [Server.drawBy]
    · simp only [Server.drawBy, Function.update_of_ne hcc] at hc
      exact hkeep d (p, l) (h.pending c' i' p l d hc)
  · intro c₁ c₂ i₁ i₂ p₁ p₂ l₁ l₂ d h₁ h₂
    simp only [Server.drawBy, Function.update_apply] at h₁ h₂
    split at h₁ <;> split at h₂
    next e₁ e₂ => rw [e₁, e₂]
    next =>
      have := hlt _ _ _ _ _ h₂
      simp only [Caller.drawn.injEq] at h₁
      omega
    next =>
      have := hlt _ _ _ _ _ h₁
      simp only [Caller.drawn.injEq] at h₂
      omega
    next => exact h.apart _ _ _ _ _ _ _ _ _ h₁ h₂
  · intro e he
    obtain ⟨p, l, hd, hv⟩ := h.issued e he
    exact ⟨p, l, hkeep e.draw (p, l) hd, hv⟩
  · intro e he c' i' p l hc
    simp only [Server.drawBy, Function.update_apply] at hc
    split at hc
    next =>
      obtain ⟨p', l', hd, -⟩ := h.issued e he
      have := (List.getElem?_eq_some_iff.mp hd).1
      simp only [Caller.drawn.injEq] at hc
      omega
    next => exact h.spent e he c' i' p l hc

/-- The checks behind a draw: the value that is returned is that of the draw. -/
theorem Tracked.checkBy (h : Tracked s) {c : CallerId} {i : Nat} {p l : UInt64} {d : Nat}
    (hc : s.callers c = .drawn i p l d) : Tracked (s.checkBy c i p l d) := by
  have hidle : Tracked (s.setCaller c .idle) := h.setCaller c .idle (by simp)
  have hfree (c' i' p' l') : (s.setCaller c .idle).callers c' ≠ .drawn i' p' l' d := by
    intro hc'
    simp only [Server.setCaller, Function.update_apply] at hc'
    split at hc'
    next => cases hc'
    next hcc => exact hcc (h.apart _ _ _ _ _ _ _ _ _ hc' hc)
  have hnew (e : Issued) (he : e ∈ s.issued) : e.draw ≠ d := by
    rintro rfl
    exact h.spent e he c i p l hc
  have hdraw : s.draws[d]? = some (p, l) := h.pending c i p l d hc
  unfold Server.checkBy
  split
  next =>
    split
    next => exact h.setCaller c _ (by simp)
    next => exact hidle.issue hdraw hfree hnew (.inl rfl)
  next hrej =>
    have hle : l ≤ maxLogical := by
      simp only [Server.rejects, Bool.or_eq_true, decide_eq_true_eq, not_or] at hrej
      exact UInt64.not_lt.mp hrej.2
    exact hidle.issue hdraw hfree hnew (.inr ⟨hle, rfl⟩)

theorem Tracked.step {a : OracleAction} (h : Tracked s) (hstep : Step s a t)
    (hsession : ∀ now, a ≠ .start now) : Tracked t := by
  cases hstep.effect with
  | start now => exact absurd rfl (hsession now)
  | update now =>
      obtain heq | ⟨-, heq⟩ | ⟨next, -, heq⟩ := s.update_cases now <;> rw [heq]
      · exact h.halt
      · exact h
      · exact ⟨h.pending, h.apart, h.issued, h.spent, h.nodup⟩
  | call c => exact h.setCaller c _ (by simp)
  | draw c i => exact h.drawBy c i
  | check c i p l d hc => exact h.checkBy hc
  | stop => exact h.halt
  | stopSaving now =>
      have hhalt := h.halt
      exact ⟨hhalt.pending, hhalt.apart, hhalt.issued, hhalt.spent, hhalt.nodup⟩

theorem SessionStep.keeps {a : OracleAction} (hstep : SessionStep s a t) (hno : NoOverflow s a)
    (hp : s.oracle.physiacl.toNat < 2 ^ 45) (hd : DrawsOrdered s) : DrawsOrdered t := by
  cases hstep.1.effect with
  | start now => exact absurd rfl (hstep.2.1 now)
  | update now => exact hd.update now hp
  | draw c i => exact hd.drawBy c i hp (hno c rfl)
  | check c i p l d hc => exact hd.checkBy c i p l d
  | call c | stop | stopSaving now => exact hd.of_eq rfl (Nat.le_refl _)

/-- Drawn pairs with a logical part that is accepted compose in their order. -/
theorem composeTS_lt {first second : UInt64 × UInt64} (hrank : rank first < rank second)
    (hfirst : first.1.toNat < 2 ^ 45) (hsecond : second.1.toNat < 2 ^ 45)
    (hpos : 0 < second.2.toNat) (hl : first.2 ≤ maxLogical) (hl' : second.2 ≤ maxLogical) :
    composeTS first.1 first.2 < composeTS second.1 second.2 := by
  have hmax : maxLogical.toNat = 2 ^ 18 := by decide
  have hle : first.2.toNat ≤ 2 ^ 18 := hmax ▸ UInt64.le_iff_toNat_le.mp hl
  have hle' : second.2.toNat ≤ 2 ^ 18 := hmax ▸ UInt64.le_iff_toNat_le.mp hl'
  have hfst := composeTS_toNat (by omega : first.1.toNat + 1 < 2 ^ 46) hle
  have hsnd := composeTS_toNat (by omega : second.1.toNat + 1 < 2 ^ 46) hle'
  unfold rank at hrank
  apply UInt64.lt_iff_toNat_lt.mpr
  omega

theorem issued_lt (hd : DrawsOrdered s) (ht : Tracked s) {a b : Issued} (ha : a ∈ s.issued)
    (hb : b ∈ s.issued) (hav : a.value ≠ 0) (hbv : b.value ≠ 0) (hlt : a.draw < b.draw) :
    a.value < b.value := by
  obtain ⟨p, l, hdraw, hvalue⟩ := ht.issued a ha
  obtain ⟨p', l', hdraw', hvalue'⟩ := ht.issued b hb
  obtain ⟨hl, hva⟩ := hvalue.resolve_left hav
  obtain ⟨hl', hvb⟩ := hvalue'.resolve_left hbv
  obtain ⟨hia, hga⟩ := List.getElem?_eq_some_iff.mp hdraw
  obtain ⟨hib, hgb⟩ := List.getElem?_eq_some_iff.mp hdraw'
  have hrank : rank (p, l) < rank (p', l') := by
    have hpair := List.pairwise_iff_getElem.mp hd.ordered _ _ hia hib hlt
    rwa [hga, hgb] at hpair
  have hfirst := hd.sound (p, l) (List.mem_of_getElem? hdraw)
  have hsecond := hd.sound (p', l') (List.mem_of_getElem? hdraw')
  rw [hva, hvb]
  exact @composeTS_lt (p, l) (p', l') hrank hfirst.1 hsecond.1 hsecond.2 hl hl'

theorem increasing_of_draws (hd : DrawsOrdered s) (ht : Tracked s) : Increasing s.issued := by
  refine ⟨?_, fun a ha b hb => issued_lt hd ht ha hb⟩
  rw [List.pairwise_filter]
  -- Two returned values come from two critical sections, one of which was first.
  refine ht.nodup.imp_of_mem ?_
  intro a b ha hb hne hav hbv heq
  simp only [ne_eq, decide_not, Bool.not_eq_true', decide_eq_false_iff_not] at hav hbv
  obtain hlt | hlt := Nat.lt_or_gt_of_ne hne
  · have hv := issued_lt hd ht ha hb hav hbv hlt
    rw [heq] at hv
    exact UInt64.lt_irrefl _ hv
  · have hv := issued_lt hd ht hb ha hbv hav hlt
    rw [heq] at hv
    exact UInt64.lt_irrefl _ hv

theorem start_of_boot {dir : DataDir} {now : UInt64} (h : Step (boot dir) (.start now) s) :
    s = (boot dir).start now := by
  simpa [Step, step, boot] using h.symm

theorem tracked_boot (dir : DataDir) : Tracked (boot dir) := by
  constructor <;> simp [boot]

theorem tracked_start {dir : DataDir} {now : UInt64} (h : Step (boot dir) (.start now) s) :
    Tracked s := by
  obtain heq | heq := (boot dir).start_cases now <;> rw [start_of_boot h, heq]
  · exact tracked_boot dir
  · constructor <;> simp [opened, boot]

end Draws

/-- Within a session, with the physical part below 2^45 and no overflow of the
64-bit logical counter, `getTimeStamp` returns distinct values in the order of
its critical sections. -/
theorem timestamps_increase {dir : DataDir} {now : UInt64} {s t : Server}
    {trace : List OracleAction} (hstart : Step (boot dir) (.start now) s)
    (hp : s.oracle.physiacl.toNat < 2 ^ 45)
    (hrun : Lts.Run (fun s a t => SessionStep s a t ∧ NoOverflow s a) s trace t) :
    Increasing t.issued := by
  have hs : s.oracle.physiacl.toNat < 2 ^ 45 ∧ DrawsOrdered s ∧ Tracked s := by
    refine ⟨hp, ?_, tracked_start hstart⟩
    obtain heq | heq := (boot dir).start_cases now <;> rw [start_of_boot hstart, heq]
    · exact ⟨List.Pairwise.nil, by simp [boot], by simp [boot]⟩
    · exact ⟨List.Pairwise.nil, by simp [opened], by simp [opened]⟩
  have ht := hrun.preserves
    (fun s => s.oracle.physiacl.toNat < 2 ^ 45 ∧ DrawsOrdered s ∧ Tracked s)
    (fun s a t hstep hinv => ⟨hstep.1.2.2, hstep.1.keeps hstep.2 hinv.1 hinv.2.1,
      hinv.2.2.step hstep.1.1 hstep.1.2.1⟩) hs
  exact increasing_of_draws ht.2.1 ht.2.2

/-- Two callers draw, the clock moves, and the one that drew last returns first. -/
theorem timestamps_increase_two_callers :
    ∃ t : Server, t.issued = [⟨1, 1, composeTS 5 2⟩, ⟨1, 0, composeTS 5 1⟩] ∧
      Increasing t.issued := by
  refine ⟨_, ?_, @timestamps_increase ⟨true, true, none⟩ 5 _ _
    [.call 0, .call 1, .draw 0, .draw 1, .update 9, .check 1, .check 0] rfl (by decide)
    (.cons ⟨⟨rfl, by simp, by decide⟩, by intro _ _; decide⟩
      (.cons ⟨⟨rfl, by simp, by decide⟩, by intro _ _; decide⟩
      (.cons ⟨⟨rfl, by simp, by decide⟩, by intro _ _; decide⟩
      (.cons ⟨⟨rfl, by simp, by decide⟩, by intro _ _; decide⟩
      (.cons ⟨⟨rfl, by simp, by decide⟩, by intro _ _; decide⟩
      (.cons ⟨⟨rfl, by simp, by decide⟩, by intro _ _; decide⟩
      (.cons ⟨⟨rfl, by simp, by decide⟩, by intro _ _; decide⟩ (.nil _))))))))⟩
  rfl

section Overflow

/-- One caller, at work alone, has drawn `n` times on the physical part `p`. -/
structure Alone (p : UInt64) (n : Nat) (s : Server) : Prop where
  running : s.running = true
  physiacl : s.oracle.physiacl = p
  logical : s.oracle.logical = .ofNat n
  draws : s.draws.length = n
  caller : s.callers 0 = .idle ∨ ∃ i, s.callers 0 = .attempt i

variable {p : UInt64} {n : Nat} {s : Server}

theorem Alone.calling (h : Alone p n s) (hp : p.toNat < 2 ^ 45) :
    ∃ trace t i, Lts.Run SessionStep s trace t ∧ Alone p n t ∧ t.callers 0 = .attempt i ∧
      t.issued = s.issued := by
  obtain hidle | ⟨i, hi⟩ := h.caller
  · have hcaller : (s.setCaller 0 (.attempt 0)).callers 0 = .attempt 0 := by simp [setCaller]
    refine ⟨[.call 0], s.setCaller 0 (.attempt 0), 0, .single ⟨?_, by simp, ?_⟩,
      ⟨h.running, h.physiacl, h.logical, h.draws, .inr ⟨0, hcaller⟩⟩, hcaller, rfl⟩
    · simp [Step, step, h.running, hidle]
    · simpa [setCaller, h.physiacl] using hp
  · exact ⟨[], s, i, .nil s, h, hi, rfl⟩

theorem checkBy_keeps (s : Server) (i : Nat) (l : UInt64) (d : Nat) :
    (∀ e ∈ s.issued, e ∈ (s.checkBy 0 i p l d).issued) ∧
      ((s.checkBy 0 i p l d).callers 0 = .idle ∨
        ∃ i', (s.checkBy 0 i p l d).callers 0 = .attempt i') := by
  unfold checkBy
  split
  · split <;> simp +contextual [setCaller, issue]
  · simp +contextual [setCaller, issue]

theorem checkBy_accepts (s : Server) {i : Nat} {l : UInt64} {d : Nat} (hp : s.oracle.physiacl ≠ 0)
    (hl : l ≤ maxLogical) :
    (s.checkBy 0 i p l d).issued = s.issued ++ [⟨s.session, d, composeTS p l⟩] := by
  have hrej : s.rejects l = false := by
    simp [rejects, hp, UInt64.not_lt.mpr hl]
  simp [checkBy, hrej, issue, setCaller]

/-- One more round of the caller. -/
theorem Alone.round (h : Alone p n s) (hp : p.toNat < 2 ^ 45) (hp0 : p ≠ 0) :
    ∃ trace t, Lts.Run SessionStep s trace t ∧ Alone p (n + 1) t ∧
      (∀ e ∈ s.issued, e ∈ t.issued) ∧
      (UInt64.ofNat (n + 1) ≤ maxLogical →
        ∃ e ∈ t.issued, e.draw = n ∧ e.value = composeTS p (.ofNat (n + 1))) := by
  obtain ⟨trace, t, i, hrun, ht, hi, hissued⟩ := h.calling hp
  have hsucc : t.oracle.logical + 1 = .ofNat (n + 1) := by
    rw [ht.logical, UInt64.ofNat_add]
    rfl
  have hdrawn : (t.drawBy 0 i).callers 0 = .drawn i p (.ofNat (n + 1)) n := by
    simp [drawBy, hsucc, ht.physiacl, ht.draws]
  have halone : (t.drawBy 0 i).oracle.physiacl = p := ht.physiacl
  obtain ⟨-, hon, horacle, hdraws, -⟩ := checkBy_frame (t.drawBy 0 i) 0 i p (.ofNat (n + 1)) n
  obtain ⟨hkept, hpc⟩ := checkBy_keeps (p := p) (t.drawBy 0 i) i (.ofNat (n + 1)) n
  have hdraw : SessionStep t (.draw 0) (t.drawBy 0 i) := by
    refine ⟨?_, by simp, ?_⟩
    · simp [Step, step, hi]
    · rw [halone]
      exact hp
  have hcheck : SessionStep (t.drawBy 0 i) (.check 0)
      ((t.drawBy 0 i).checkBy 0 i p (.ofNat (n + 1)) n) := by
    refine ⟨?_, by simp, ?_⟩
    · simp [Step, step, hdrawn]
    · rw [horacle, halone]
      exact hp
  refine ⟨trace ++ [.draw 0, .check 0], _, hrun.append (.cons hdraw (.single hcheck)),
    ⟨?_, ?_, ?_, ?_, hpc⟩, ?_, ?_⟩
  · rw [hon]
    exact ht.running
  · rw [horacle]
    exact halone
  · rw [horacle]
    exact hsucc
  · rw [hdraws]
    simp [drawBy, ht.draws]
  · intro e he
    apply hkept
    simpa [drawBy, hissued] using he
  · intro hle
    refine ⟨⟨t.session, n, composeTS p (.ofNat (n + 1))⟩, ?_, rfl, rfl⟩
    rw [checkBy_accepts _ (by rw [halone]; exact hp0) hle]
    exact List.mem_append_right _ (List.mem_singleton_self _)

/-- Any number of rounds; the first round's timestamp stays among the issued
ones. -/
theorem Alone.rounds (h : Alone p n s) (hp : p.toNat < 2 ^ 45) (hp0 : p ≠ 0) (k : Nat) :
    ∃ trace t, Lts.Run SessionStep s trace t ∧ Alone p (n + k) t ∧
      ∀ e ∈ s.issued, e ∈ t.issued := by
  induction k with
  | zero => exact ⟨[], s, .nil s, h, fun _ he => he⟩
  | succ k ih =>
      obtain ⟨trace, t, hrun, ht, hkept⟩ := ih
      obtain ⟨trace', u, hrun', hu, hkept', -⟩ := ht.round hp hp0
      exact ⟨trace ++ trace', u, hrun.append hrun', hu, fun e he => hkept' e (hkept e he)⟩

end Overflow

/-- The bound on the physical part alone is not enough: the counter comes back to
the same number after 2^64 draws, and so does the timestamp. -/
theorem timestamps_repeat :
    ¬ ∀ (dir : DataDir) (now : UInt64) (s t : Server) (trace : List OracleAction),
      Step (boot dir) (.start now) s → s.oracle.physiacl.toNat < 2 ^ 45 →
        Lts.Run SessionStep s trace t → Increasing t.issued := by
  intro hall
  let s := (boot ⟨true, true, none⟩).start 5
  have hs : Alone 5 0 s := ⟨rfl, rfl, rfl, rfl, .inl rfl⟩
  have hp : (5 : UInt64).toNat < 2 ^ 45 := by decide
  obtain ⟨first, t, hfirst, ht, -, hone⟩ := hs.round hp (by decide)
  obtain ⟨a, ha, had, hav⟩ := hone (by decide)
  obtain ⟨middle, u, hmiddle, hu, hkept⟩ := ht.rounds hp (by decide) (2 ^ 64 - 1)
  obtain ⟨last, v, hlast, -, hkept', hagain⟩ := hu.round hp (by decide)
  have hlogic : UInt64.ofNat (0 + 1 + (2 ^ 64 - 1) + 1) = 1 := by decide
  rw [hlogic] at hagain
  obtain ⟨b, hb, hbd, hbv⟩ := hagain (by decide)
  have hinc := hall ⟨true, true, none⟩ 5 s v _ rfl hp ((hfirst.append hmiddle).append hlast)
  have hlt := hinc.2 a (hkept' a (hkept a ha)) b hb (by rw [hav]; decide) (by rw [hbv]; decide)
    (by omega)
  rw [hav, hbv] at hlt
  exact absurd hlt (by decide)

end Server

end RucDDBS
