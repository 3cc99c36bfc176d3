import RucDDBS.MetaServer.TimestampOrder

/-!
The physical part of a timestamp, read back from it. The logical part has eighteen bits,
and the check lets one number through that does not fit: `maxLogical` itself. `ComposeTS`
adds the two parts, so this number is carried into the physical part.
-/

namespace RucDDBS

namespace Oracle

def extractPhysical (ts : UInt64) : UInt64 := ts >>> physicalShiftBits

theorem extractPhysical_toNat (ts : UInt64) :
    (extractPhysical ts).toNat = ts.toNat / 2 ^ 18 := by
  have hbits : physicalShiftBits.toNat % 64 = 18 := by decide
  rw [extractPhysical, UInt64.toNat_shiftRight, hbits, Nat.shiftRight_eq_div_pow]

/-- Of the logical numbers that are accepted, the last one is carried over. -/
theorem extractPhysical_composeTS {physical logical : UInt64} (hp : physical.toNat < 2 ^ 45)
    (hl : logical ≤ maxLogical) :
    extractPhysical (composeTS physical logical) = physical ↔ logical ≠ maxLogical := by
  have hmax : maxLogical.toNat = 2 ^ 18 := by decide
  have hle : logical.toNat ≤ 2 ^ 18 := hmax ▸ UInt64.le_iff_toNat_le.mp hl
  have hne : logical ≠ maxLogical ↔ logical.toNat ≠ 2 ^ 18 := by
    rw [← hmax, ne_eq, ne_eq, UInt64.toNat_inj]
  rw [hne, ← UInt64.toNat_inj, extractPhysical_toNat, composeTS_toNat (by omega) hle]
  omega

theorem composeTS_ne_zero {physical : UInt64} (hp : physical.toNat < 2 ^ 45) :
    composeTS physical maxLogical ≠ 0 := by
  have hmax : maxLogical.toNat = 2 ^ 18 := by decide
  have hvalue := composeTS_toNat (by omega : physical.toNat + 1 < 2 ^ 46) (Nat.le_of_eq hmax)
  intro hzero
  rw [hzero, hmax] at hvalue
  have hnone : (0 : UInt64).toNat = 0 := by decide
  omega

end Oracle

namespace Server

open Oracle

section Spec

/-- A step of one session. -/
def WithinSession (s : Server) (a : OracleAction) (t : Server) : Prop :=
  Step s a t ∧ ∀ now, a ≠ .start now

/-- The physical part of a returned timestamp is that of its critical section. -/
def PhysicalOf (s : Server) (draw : Nat) (value : UInt64) : Prop :=
  value ≠ 0 → ∃ p l, s.draws[draw]? = some (p, l) ∧
    (p.toNat < 2 ^ 45 → extractPhysical value = p)

/-- Every timestamp that was returned gives its physical part back. -/
def PhysicalRecovered (s : Server) : Prop := ∀ e ∈ s.issued, s.PhysicalOf e.draw e.value

/-- No attempt that has drawn exactly `maxLogical` is let through. -/
def Carryless (s : Server) : OracleAction → Prop
  | .check c => ∀ i p l d, s.callers c = .drawn i p l d → p.toNat < 2 ^ 45 → l = maxLogical →
      s.oracle.physiacl = 0
  | _ => True

end Spec

variable {s t : Server} {a : OracleAction}

/-- A step of a session takes nothing back of what was drawn and returned. -/
theorem WithinSession.history (h : WithinSession s a t) :
    (∀ e ∈ s.issued, e ∈ t.issued) ∧
      ∀ (d : Nat) pair, s.draws[d]? = some pair → t.draws[d]? = some pair := by
  cases h.1.effect with
  | start now => exact absurd rfl (h.2 now)
  | update now =>
      obtain heq | ⟨-, heq⟩ | ⟨next, -, heq⟩ := s.update_cases now <;> rw [heq]
      · exact ⟨fun _ he => he, fun _ _ hd => hd⟩
      · exact ⟨fun _ he => he, fun _ _ hd => hd⟩
      · exact ⟨fun _ he => he, fun _ _ hd => hd⟩
  | draw c i =>
      refine ⟨fun _ he => he, ?_⟩
      intro d pair hd
      have hlt : d < s.draws.length := (List.getElem?_eq_some_iff.mp hd).1
      simp only [drawBy]
      rw [List.getElem?_append_left hlt]
      exact hd
  | check c i p l d hc =>
      obtain ⟨-, -, -, hdraws, -⟩ := s.checkBy_frame c i p l d
      refine ⟨?_, ?_⟩
      · unfold checkBy
        split
        · split <;> simp +contextual [setCaller, issue]
        · simp +contextual [setCaller, issue]
      · intro d' pair hd
        rw [hdraws]
        exact hd
  | call c | stop | stopSaving now => exact ⟨fun _ he => he, fun _ _ hd => hd⟩

theorem physicalOf_iff {d : Nat} {p l value : UInt64} (hdraw : s.draws[d]? = some (p, l)) :
    s.PhysicalOf d value ↔
      (value ≠ 0 → p.toNat < 2 ^ 45 → extractPhysical value = p) := by
  constructor
  · intro h hvalue hp
    obtain ⟨p', l', hdraw', heq⟩ := h hvalue
    rw [hdraw, Option.some.injEq, Prod.mk.injEq] at hdraw'
    obtain ⟨rfl, rfl⟩ := hdraw'
    exact heq hp
  · intro h hvalue
    exact ⟨p, l, hdraw, h hvalue⟩

/-- What has been returned is judged alike before and after a step. -/
theorem WithinSession.physicalOf (h : WithinSession s a t) (htracked : Tracked s) {e : Issued}
    (he : e ∈ s.issued) : t.PhysicalOf e.draw e.value ↔ s.PhysicalOf e.draw e.value := by
  obtain ⟨p, l, hdraw, _⟩ := htracked.issued e he
  rw [physicalOf_iff hdraw, physicalOf_iff (h.history.2 _ _ hdraw)]

theorem WithinSession.recovered_of_after (h : WithinSession s a t) (htracked : Tracked s)
    (hafter : PhysicalRecovered t) : PhysicalRecovered s := by
  intro e he
  exact (h.physicalOf htracked he).mp (hafter e (h.history.1 e he))

/-- A step that returns nothing. -/
theorem WithinSession.recovered_of_issued (h : WithinSession s a t) (htracked : Tracked s)
    (hsame : t.issued = s.issued) (hbefore : PhysicalRecovered s) : PhysicalRecovered t := by
  intro e he
  rw [hsame] at he
  exact (h.physicalOf htracked he).mpr (hbefore e he)

/-- A step that returns a value. -/
theorem WithinSession.recovered_iff (h : WithinSession s a t) (htracked : Tracked s)
    {d : Nat} {value : UInt64} (hissued : t.issued = s.issued ++ [⟨s.session, d, value⟩])
    (hbefore : PhysicalRecovered s) : PhysicalRecovered t ↔ t.PhysicalOf d value := by
  constructor
  · intro hafter
    exact hafter ⟨s.session, d, value⟩ (by simp [hissued])
  · intro hnew e he
    rw [hissued, List.mem_append, List.mem_singleton] at he
    rcases he with hold | rfl
    · exact (h.physicalOf htracked hold).mpr (hbefore e hold)
    · exact hnew

theorem carryless_check_iff {c : CallerId} {i : Nat} {p l : UInt64} {d : Nat}
    (hc : s.callers c = .drawn i p l d) : s.Carryless (.check c) ↔
      (p.toNat < 2 ^ 45 → l = maxLogical → s.oracle.physiacl = 0) := by
  simp only [Carryless, hc, Caller.drawn.injEq]
  constructor
  · intro hall
    exact hall i p l d ⟨rfl, rfl, rfl, rfl⟩
  · rintro hone _ _ _ _ ⟨rfl, rfl, rfl, rfl⟩
    exact hone

/-- The checks behind a draw keep the property exactly if they let no carry through. -/
theorem WithinSession.recovered_check {c : CallerId} {i : Nat} {p l : UInt64} {d : Nat}
    (h : WithinSession s (.check c) (s.checkBy c i p l d)) (htracked : Tracked s)
    (hc : s.callers c = .drawn i p l d) (hbefore : PhysicalRecovered s) :
    PhysicalRecovered (s.checkBy c i p l d) ↔ s.Carryless (.check c) := by
  have hdraw := h.history.2 _ _ (htracked.pending c i p l d hc)
  rw [carryless_check_iff hc]
  cases hreject : s.rejects l with
  | true =>
      have hrejected : s.oracle.physiacl = 0 ∨ maxLogical < l := by
        simpa [rejects] using hreject
      apply iff_of_true
      · by_cases hretry : i + 1 < maxRetryCount
        · apply h.recovered_of_issued htracked _ hbefore
          simp [checkBy, hreject, hretry, setCaller]
        · have hissued : (s.checkBy c i p l d).issued = s.issued ++ [⟨s.session, d, 0⟩] := by
            simp [checkBy, hreject, hretry, setCaller, issue]
          rw [h.recovered_iff htracked hissued hbefore]
          intro hvalue
          exact absurd rfl hvalue
      · rintro _ rfl
        exact hrejected.resolve_right (UInt64.lt_irrefl _)
  | false =>
      have haccepted : s.oracle.physiacl ≠ 0 ∧ l ≤ maxLogical := by
        simpa [rejects] using hreject
      have hissued : (s.checkBy c i p l d).issued =
          s.issued ++ [⟨s.session, d, composeTS p l⟩] := by
        simp [checkBy, hreject, setCaller, issue]
      rw [h.recovered_iff htracked hissued hbefore, physicalOf_iff hdraw]
      constructor
      · intro hvalue hp hmax
        have hne := (extractPhysical_composeTS hp haccepted.2).mp
          (hvalue (hmax ▸ composeTS_ne_zero hp) hp)
        exact absurd hmax hne
      · intro hok _ hp
        apply (extractPhysical_composeTS hp haccepted.2).mpr
        intro hmax
        exact haccepted.1 (hok hp hmax)

/-- One step keeps the property exactly if it lets no carry through. -/
theorem WithinSession.recovered (h : WithinSession s a t) (htracked : Tracked s)
    (hbefore : PhysicalRecovered s) : PhysicalRecovered t ↔ s.Carryless a := by
  cases h.1.effect with
  | start now => exact absurd rfl (h.2 now)
  | update now =>
      refine iff_of_true (h.recovered_of_issued htracked ?_ hbefore) trivial
      obtain heq | ⟨-, heq⟩ | ⟨next, -, heq⟩ := s.update_cases now <;> rw [heq] <;> rfl
  | draw c i | call c | stop | stopSaving now =>
      exact iff_of_true (h.recovered_of_issued htracked rfl hbefore) trivial
  | check c i p l d hc => exact h.recovered_check htracked hc hbefore

/-- In a session, all timestamps that were returned give the physical part of their
critical section back exactly if no attempt that drew `maxLogical` was let through. -/
theorem physical_recovered_iff {dir : DataDir} {now : UInt64} {trace : List OracleAction}
    (hstart : Step (boot dir) (.start now) s) (hrun : Lts.Run WithinSession s trace t) :
    PhysicalRecovered t ↔
      Lts.Run (fun s a t => s.Carryless a ∧ WithinSession s a t) s trace t := by
  apply hrun.holds_iff (fun _ s => Tracked s) (fun _ s => PhysicalRecovered s) Carryless
  · intro _ s a t hstep htracked
    exact htracked.step hstep.1 hstep.2
  · intro _ s a t hstep htracked hbefore
    exact hstep.recovered htracked hbefore
  · intro _ s a t hstep htracked hafter
    exact hstep.recovered_of_after htracked hafter
  · exact tracked_start hstart
  · intro e he
    have hnone : s.issued = [] := by
      obtain heq | heq := (boot dir).start_cases now <;> rw [start_of_boot hstart, heq] <;> rfl
    rw [hnone] at he
    cases he

/-- A caller draws, the clock moves, and the timestamp still gives the old physical part. -/
theorem one_caller_recovered :
    ∃ t : Server, t.issued = [⟨1, 0, composeTS 5 1⟩] ∧ PhysicalRecovered t ∧
      extractPhysical (composeTS 5 1) = 5 := by
  let s := (boot ⟨true, true, none⟩).start 5
  let u := ((s.setCaller 0 (.attempt 0)).drawBy 0 0).update 9
  have hcaller : u.callers 0 = .drawn 0 5 1 0 := by decide +kernel
  have hrun : Lts.Run (fun s a t => s.Carryless a ∧ WithinSession s a t) s
      [.call 0, .draw 0, .update 9, .check 0] (u.checkBy 0 0 5 1 0) := by
    apply Lts.Run.cons ⟨trivial, rfl, by simp⟩
    apply Lts.Run.cons ⟨trivial, rfl, by simp⟩
    apply Lts.Run.cons (t := u) ⟨trivial, rfl, by simp⟩
    apply Lts.Run.single
    refine ⟨?_, ?_, by simp⟩
    · intro i p l d hc _ hl
      rw [hcaller] at hc
      cases hc
      exact absurd hl (by decide)
    · simp only [Step, step, hcaller]
  refine ⟨_, ?_, (@physical_recovered_iff s _ ⟨true, true, none⟩ 5 _ rfl
    (hrun.mono fun _ _ _ h => h.2)).mpr hrun, by decide⟩
  decide +kernel

/-- The last number before an update is carried: the timestamp drawn on 5 reads as 6. -/
theorem full_burst_carried :
    ∃ (s t : Server) (trace : List OracleAction),
      Step (boot ⟨true, true, none⟩) (.start 5) s ∧ Lts.Run WithinSession s trace t ∧
      (∃ e ∈ t.issued, e.value = composeTS 5 maxLogical ∧
        t.draws[e.draw]? = some (5, maxLogical) ∧ extractPhysical e.value = 6) ∧
      ¬ PhysicalRecovered t := by
  let s := (boot ⟨true, true, none⟩).start 5
  have hs : Alone 5 0 s := ⟨rfl, rfl, rfl, rfl, .inl rfl⟩
  have hp : (5 : UInt64).toNat < 2 ^ 45 := by decide
  obtain ⟨before, u, hbefore, hu, -⟩ := hs.rounds hp (by decide) (2 ^ 18 - 1)
  obtain ⟨call, v, i, hcall, hv, hi, -⟩ := hu.calling hp
  have hlogical : v.oracle.logical + 1 = maxLogical := by
    rw [hv.logical]
    decide
  have hdrawn : (v.drawBy 0 i).callers 0 = .drawn i 5 maxLogical v.draws.length := by
    simp [drawBy, hlogical, hv.physiacl]
  let t := (v.drawBy 0 i).checkBy 0 i 5 maxLogical v.draws.length
  have hdraw : WithinSession v (.draw 0) (v.drawBy 0 i) := by
    refine ⟨?_, by simp⟩
    simp [Step, step, hi]
  have hcheck : WithinSession (v.drawBy 0 i) (.check 0) t := by
    refine ⟨?_, by simp⟩
    simp [Step, step, hdrawn, t]
  have hrun : Lts.Run WithinSession s (before ++ call ++ [.draw 0, .check 0]) t := by
    have hburst := (hbefore.append hcall).mono fun _ _ _ h =>
      (⟨h.1, h.2.1⟩ : WithinSession _ _ _)
    exact hburst.append (.cons hdraw (.single hcheck))
  have hissued : ⟨v.session, v.draws.length, composeTS 5 maxLogical⟩ ∈ t.issued := by
    have hphysiacl : (v.drawBy 0 i).oracle.physiacl = 5 := hv.physiacl
    rw [checkBy_accepts _ (by rw [hphysiacl]; decide) (by decide)]
    exact List.mem_append_right _ (List.mem_singleton_self _)
  have hpair : t.draws[v.draws.length]? = some (5, maxLogical) := by
    rw [(checkBy_frame _ _ _ _ _ _).2.2.2.1]
    simp [drawBy, hlogical, hv.physiacl]
  have hsix : extractPhysical (composeTS 5 maxLogical) = 6 := by decide
  refine ⟨s, t, _, rfl, hrun, ⟨_, hissued, rfl, hpair, hsix⟩, ?_⟩
  intro hrecovered
  have hfive : extractPhysical (composeTS 5 maxLogical) = 5 :=
    (physicalOf_iff hpair).mp (hrecovered _ hissued) (composeTS_ne_zero hp) hp
  rw [hsix] at hfive
  exact absurd hfive (by decide)

end Server

end RucDDBS
