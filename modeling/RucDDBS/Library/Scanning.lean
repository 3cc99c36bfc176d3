import Mathlib.Data.List.Basic

/-!
Scanners as a generator makes them from patterns with actions. At every place of the text
the longest match wins, and of two matches of one length the pattern that stands first. A
scanner has start conditions, each with patterns of its own, and a character that no
pattern matches is passed over.
-/

namespace Scanning

variable {Q ρ γ τ : Type}

section Longest

variable {len : ρ → Nat} {ps pre post : List ρ} {p : ρ} {n : Nat}

/-- The first of the patterns with the longest matches, and the length of its match. -/
def longest (len : ρ → Nat) : List ρ → Option (ρ × Nat)
  | [] => none
  | p :: ps =>
      if 0 < len p ∧ (longest len ps).all (fun best => best.2 ≤ len p) then some (p, len p)
      else longest len ps

theorem longest_eq_none_iff : longest len ps = none ↔ ∀ p ∈ ps, len p = 0 := by
  induction ps with
  | nil => exact ⟨fun _ _ hp => absurd hp List.not_mem_nil, fun _ => rfl⟩
  | cons p ps ih =>
      rw [longest, List.forall_mem_cons, ← ih]
      split
      next hwins =>
        constructor
        · intro h
          cases h
        · intro h
          exact absurd h.1 (Nat.ne_of_gt hwins.1)
      next hlose =>
        refine ⟨fun h => ⟨?_, h⟩, And.right⟩
        rw [h] at hlose
        by_contra hne
        exact hlose ⟨Nat.pos_of_ne_zero hne, rfl⟩

/-- No match is longer than the chosen one. -/
theorem longest_max (h : longest len ps = some (p, n)) :
    p ∈ ps ∧ len p = n ∧ 0 < n ∧ ∀ q ∈ ps, len q ≤ n := by
  induction ps generalizing p n with
  | nil => cases h
  | cons r ps ih =>
      rw [longest] at h
      split at h
      next hwins =>
        obtain ⟨rfl, rfl⟩ := Prod.mk.inj (Option.some.inj h)
        refine ⟨List.mem_cons_self, rfl, hwins.1, List.forall_mem_cons.mpr ⟨Nat.le_refl _, ?_⟩⟩
        intro q hq
        cases hps : longest len ps with
        | none =>
            rw [longest_eq_none_iff.mp hps q hq]
            exact Nat.zero_le _
        | some best =>
            have hle := hwins.2
            rw [hps, Option.all_some, decide_eq_true_eq] at hle
            exact Nat.le_trans ((ih hps).2.2.2 q hq) hle
      next hlose =>
        obtain ⟨hmem, hlen, hpos, hmax⟩ := ih h
        refine ⟨List.mem_cons_of_mem r hmem, hlen, hpos, List.forall_mem_cons.mpr ⟨?_, hmax⟩⟩
        rw [h, Option.all_some, decide_eq_true_eq] at hlose
        omega

/-- A pattern wins against shorter matches before it and against no longer ones behind it. -/
theorem longest_append (hp : len p = n) (hpos : 0 < n) (hpre : ∀ q ∈ pre, len q < n)
    (hpost : ∀ q ∈ post, len q ≤ n) : longest len (pre ++ p :: post) = some (p, n) := by
  induction pre with
  | nil =>
      rw [List.nil_append, longest, hp, if_pos]
      refine ⟨hpos, ?_⟩
      cases hlongest : longest len post with
      | none => rfl
      | some best =>
          obtain ⟨hmem, hlen, _⟩ := longest_max hlongest
          rw [Option.all_some, decide_eq_true_eq, ← hlen]
          exact hpost best.1 hmem
  | cons q pre ih =>
      have hq := hpre q List.mem_cons_self
      have hrest := ih fun r hr => hpre r (List.mem_cons_of_mem q hr)
      rw [List.cons_append, longest, hrest, if_neg]
      rintro ⟨_, hle⟩
      rw [Option.all_some, decide_eq_true_eq] at hle
      omega

theorem longest_cons (hp : len p = n) (hpos : 0 < n) (hpost : ∀ q ∈ post, len q ≤ n) :
    longest len (p :: post) = some (p, n) := by
  rw [← List.nil_append (p :: post)]
  exact longest_append hp hpos (fun q hq => absurd hq List.not_mem_nil) hpost

/-- Patterns without a match may be left out. -/
theorem longest_filter {keep : ρ → Bool} (h : ∀ p ∈ ps, keep p = false → len p = 0) :
    longest len (ps.filter keep) = longest len ps := by
  induction ps with
  | nil => rfl
  | cons p ps ih =>
      have hps := ih fun q hq => h q (List.mem_cons_of_mem p hq)
      cases hkeep : keep p with
      | true => rw [List.filter_cons_of_pos hkeep, longest, longest, hps]
      | false =>
          have hzero := h p List.mem_cons_self hkeep
          rw [List.filter_cons_of_neg (by rw [hkeep]; exact Bool.false_ne_true), hps, longest,
            if_neg (by omega)]

end Longest

section Scanner

/-- What a pattern does with the characters that it matched. -/
inductive Act (Q τ : Type) where
  | token (tok : τ)
  | start (q : Q)
  | skip

structure Scanner (Q ρ γ τ : Type) where
  patterns : Q → List ρ
  length : ρ → List γ → Nat
  act : ρ → List γ → Act Q τ
  eof : τ

/-- Where a scanner stands in its text. -/
structure Source (Q γ : Type) where
  start : Q
  rest : List γ
  deriving DecidableEq

variable (S : Scanner Q ρ γ τ)

/-- The pattern that is matched at the front of the text, if there is one. -/
def Scanner.match? (s : Source Q γ) : Option (ρ × Nat) :=
  longest (fun p => S.length p s.rest) (S.patterns s.start)

/-- The next token. At the end of the text the scanner gives `eof`, again and again. -/
def Scanner.next (s : Source Q γ) : τ × Source Q γ :=
  match hrest : s.rest with
  | [] => (S.eof, s)
  | _ :: rest =>
      match hmatch : S.match? s with
      | none => next ⟨s.start, rest⟩
      | some (p, n) =>
          match S.act p (s.rest.take n) with
          | .token tok => (tok, ⟨s.start, s.rest.drop n⟩)
          | .start q => next ⟨q, s.rest.drop n⟩
          | .skip => next ⟨s.start, s.rest.drop n⟩
termination_by s.rest.length
decreasing_by
  · rw [hrest]
    exact Nat.lt_succ_self _
  all_goals
    have hpos := (longest_max hmatch).2.2.1
    rw [List.length_drop, hrest, List.length_cons]
    omega

end Scanner

section Steps

variable {S : Scanner Q ρ γ τ} {s : Source Q γ} {p : ρ} {n : Nat}

theorem next_nil (q : Q) : S.next ⟨q, []⟩ = (S.eof, ⟨q, []⟩) := by
  rw [Scanner.next]

theorem next_of_match (hne : s.rest ≠ []) (h : S.match? s = some (p, n)) :
    S.next s = match S.act p (s.rest.take n) with
      | .token tok => (tok, ⟨s.start, s.rest.drop n⟩)
      | .start q => S.next ⟨q, s.rest.drop n⟩
      | .skip => S.next ⟨s.start, s.rest.drop n⟩ := by
  rw [Scanner.next]
  split
  next hrest => exact absurd hrest hne
  next =>
    split
    next hnone =>
      rw [h] at hnone
      cases hnone
    next p' n' hsome =>
      rw [h] at hsome
      obtain ⟨rfl, rfl⟩ := Prod.mk.inj (Option.some.inj hsome)
      rfl

theorem next_token {tok : τ} (hne : s.rest ≠ []) (h : S.match? s = some (p, n))
    (hact : S.act p (s.rest.take n) = .token tok) :
    S.next s = (tok, ⟨s.start, s.rest.drop n⟩) := by
  rw [next_of_match hne h, hact]

theorem next_start {q : Q} (hne : s.rest ≠ []) (h : S.match? s = some (p, n))
    (hact : S.act p (s.rest.take n) = .start q) : S.next s = S.next ⟨q, s.rest.drop n⟩ := by
  rw [next_of_match hne h, hact]

theorem next_skip (hne : s.rest ≠ []) (h : S.match? s = some (p, n))
    (hact : S.act p (s.rest.take n) = .skip) : S.next s = S.next ⟨s.start, s.rest.drop n⟩ := by
  rw [next_of_match hne h, hact]

/-- What is left behind a match. -/
theorem drop_shorter (hne : s.rest ≠ []) (h : S.match? s = some (p, n)) :
    (s.rest.drop n).length < s.rest.length := by
  have hpos := (longest_max h).2.2.1
  have hlength := List.length_pos_iff.mpr hne
  rw [List.length_drop]
  omega

/-- A scanner comes to the end, or it leaves less of the text. -/
theorem next_shorter (s : Source Q γ) :
    ((S.next s).1 = S.eof ∧ (S.next s).2.rest = []) ∨
      (S.next s).2.rest.length < s.rest.length := by
  fun_induction S.next s with
  | case1 s hrest => exact .inl ⟨rfl, hrest⟩
  | case2 s c rest hrest hmatch ih =>
      rw [hrest]
      exact ih.imp_right fun h => Nat.lt_succ_of_lt h
  | case3 s c rest hrest p n hmatch tok hact =>
      exact .inr (drop_shorter (hrest ▸ List.cons_ne_nil c rest) hmatch)
  | case4 s c rest hrest p n hmatch q hact ih =>
      have hdrop := drop_shorter (hrest ▸ List.cons_ne_nil c rest) hmatch
      exact ih.imp_right fun h => Nat.lt_trans h hdrop
  | case5 s c rest hrest p n hmatch hact ih =>
      have hdrop := drop_shorter (hrest ▸ List.cons_ne_nil c rest) hmatch
      exact ih.imp_right fun h => Nat.lt_trans h hdrop

/-- `I` holds of what is left of the text wherever the scanner stands. What then holds of the
tokens that matches are made into, and of `eof`, holds of the next token. -/
theorem next_forall {I : List γ → Prop} {P : τ → Prop} (hdrop : ∀ t n, I t → I (t.drop n))
    (heof : P S.eof)
    (hact : ∀ s p n tok, I s.rest → S.match? s = some (p, n) →
      S.act p (s.rest.take n) = .token tok → P tok)
    (s : Source Q γ) (hs : I s.rest) : P (S.next s).1 ∧ I (S.next s).2.rest := by
  fun_induction S.next s with
  | case1 s hrest => exact ⟨heof, hs⟩
  | case2 s c rest hrest hmatch ih =>
      have hone := hdrop s.rest 1 hs
      rw [hrest] at hone
      exact ih hone
  | case3 s c rest hrest p n hmatch tok haction =>
      exact ⟨hact s p n tok hs hmatch haction, hdrop s.rest n hs⟩
  | case4 s c rest hrest p n hmatch q haction ih => exact ih (hdrop s.rest n hs)
  | case5 s c rest hrest p n hmatch haction ih => exact ih (hdrop s.rest n hs)

end Steps

end Scanning
