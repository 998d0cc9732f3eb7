import LightningLob.Lib.FixedWindow
import LightningLob.RateBudget

/-! # What the rate limit bounds

    The risk manager counts the orders of a pair in a window that a check past
    its end renews, provided that check got as far as the rate limit.  Between
    two renewals at most the limit is accepted.  While timestamps do not go
    back windows do not overlap, so every interval as long as a window holds at
    most twice the limit. -/

namespace LightningLob

open SymbolParticipantState

/-! ## Section 1: The checks of a pair -/

/-- The call checks an order of the pair. -/
def RiskCall.Checks (symbol participant : UInt32) : RiskCall → Prop
  | .check s p _ _ _ => s = symbol ∧ p = participant
  | _ => False

/-- The time of the check, if the call is one of the pair. -/
def RiskCall.checkTime (symbol participant : UInt32) : RiskCall → Option Timestamp
  | .check s p _ _ now => if s = symbol ∧ p = participant then some now else none
  | _ => none

/-- The times at which the pair is checked. -/
def checkTimes (s p : UInt32) (calls : List RiskCall) : List Timestamp :=
  calls.filterMap (RiskCall.checkTime s p)

/-- The times at which the pair is checked and accepted. -/
def acceptedTimes (s p : UInt32) (tape : List (RiskCall × RejectReason)) : List Timestamp :=
  tape.filterMap fun x => if x.2 = .none then x.1.checkTime s p else none

/-- The call renews the window of the pair: the check gets as far as the rate
    limit and its time is past the window. -/
def RiskManager.Renews (pf : Platform) (s p : UInt32) (rm : RiskManager) : RiskCall → Prop
  | .check t q side quantity now => (t = s ∧ q = p) ∧
      ∃ st ∈ rm.state (packKey s.toNat p.toNat),
        st.Within pf side quantity ∧ ¬ InWindow st.windowStart now
  | _ => False

/-- No call of the stretch renews the window of the pair, except perhaps its
    first. -/
def RenewedFirst (pf : Platform) (s p : UInt32) (rm : RiskManager) : List RiskCall → Prop
  | [] => True
  | c :: cs => ∀ w rm', rm.call pf c = some (w, rm') →
      Runs.Along (RiskManager.call pf) (fun rm c => ¬ rm.Renews pf s p c) rm' cs

/-! ## Section 2: What a call does to a pair with an entry -/

/-- What a call that does not set the limits of the pair does to its entry. -/
inductive CheckStep (pf : Platform) (s p : UInt32) (st : SymbolParticipantState) (c : RiskCall)
    (reason : RejectReason) (st' : SymbolParticipantState) : Prop where
  /-- No check of the pair, or one that does not get as far as the rate limit. -/
  | kept (hsame : SameRate st st') (hnone : acceptedTimes s p [(c, reason)] = [])
  /-- The rate limit refuses. -/
  | limited (side : Side) (quantity : Int) (now : Timestamp) (hc : c = .check s p side quantity now)
      (hwithin : st.Within pf side quantity) (hreason : reason = .riskRateLimited)
      (hst : st' = st.rollWindow now)
  /-- The check passes and is counted. -/
  | counted (side : Side) (quantity : Int) (now : Timestamp) (hc : c = .check s p side quantity now)
      (hwithin : st.Within pf side quantity) (hreason : reason = .none)
      (hroom : (st.rollWindow now).ordersInWindow < st.limits.maxOrdersPerSecond)
      (hst : st' =
        { st.rollWindow now with ordersInWindow := (st.rollWindow now).ordersInWindow + 1 })

section steps

variable {pf : Platform} {s p : UInt32} {rm : RiskManager} {st st' : SymbolParticipantState}
  {c : RiskCall} {reason : RejectReason}

/-- A write to another pair leaves the entry as it was. -/
theorem RiskManager.store_other (hst : rm.state (packKey s.toNat p.toNat) = some st) {t q : UInt32}
    (hpair : ¬ (t = s ∧ q = p)) (x : SymbolParticipantState) :
    (rm.store t.toNat q.toNat x).state (packKey s.toNat p.toNat) = some st := by
  rw [store_state_of_ne q.toNat_lt p.toNat_lt, hst]
  intro h
  have hsame := pair_toNat.mp h
  exact hpair ⟨hsame.1.symm, hsame.2.symm⟩

/-- **Inversion**: what any call leaves of the pair's entry. -/
theorem RiskManager.call_checkStep (pf : Platform)
    (hst : rm.state (packKey s.toNat p.toNat) = some st) (hc : ¬ c.Configures s p) :
    ∃ reason rm' st', rm.call pf c = some (reason, rm') ∧
      rm'.state (packKey s.toNat p.toNat) = some st' ∧ CheckStep pf s p st c reason st' := by
  cases c with
  | fill t q side quantity =>
    by_cases hpair : t = s ∧ q = p
    · obtain ⟨rfl, rfl⟩ := hpair
      refine ⟨.none, _, _, rfl, store_state_self, .kept ?_ rfl⟩
      rw [entry_of_state hst]
      exact ⟨rfl, rfl, rfl⟩
    · exact ⟨.none, _, st, rfl, store_other hst hpair _, .kept (.refl st) rfl⟩
  | setLimits t q limits => exact ⟨.none, _, st, rfl, store_other hst hc _, .kept (.refl st) rfl⟩
  | check t q side quantity now =>
    by_cases hpair : t = s ∧ q = p
    · obtain ⟨rfl, rfl⟩ := hpair
      refine ⟨(st.check pf side quantity now).1, rm.store t.toNat q.toNat
        (st.check pf side quantity now).2, (st.check pf side quantity now).2, ?_,
        store_state_self, ?_⟩
      · simp only [call, checkNewOrder, hst]
        rfl
      · rcases st.check_cases pf side quantity now with ⟨-, hne, heq⟩ | ⟨hw, -, heq⟩ |
          ⟨hw, hroom, heq⟩
        · rw [heq]
          exact .kept (.refl st) (by simp [acceptedTimes, hne])
        · rw [heq]
          exact .limited side quantity now rfl hw rfl rfl
        · rw [heq]
          exact .counted side quantity now rfl hw rfl hroom rfl
    · have hnone : ∀ reason, acceptedTimes s p [(.check t q side quantity now, reason)] = [] := by
        simp [acceptedTimes, RiskCall.checkTime, hpair]
      simp only [call, checkNewOrder]
      cases rm.state (packKey t.toNat q.toNat) with
      | none => exact ⟨_, rm, st, rfl, hst, .kept (.refl st) (hnone _)⟩
      | some x => exact ⟨_, _, st, rfl, store_other hst hpair _, .kept (.refl st) (hnone _)⟩

/-- The limits of the pair are kept. -/
theorem CheckStep.limits_eq (h : CheckStep pf s p st c reason st') : st'.limits = st.limits := by
  cases h with
  | kept hsame _ => exact hsame.limits_eq
  | limited side quantity now _ _ _ hst => rw [hst, rollWindow_limits]
  | counted side quantity now _ _ _ _ hst => rw [hst]; exact rollWindow_limits st now

end steps

theorem acceptedTimes_cons (s p : UInt32) (x : RiskCall × RejectReason)
    (tape : List (RiskCall × RejectReason)) :
    acceptedTimes s p (x :: tape) = acceptedTimes s p [x] ++ acceptedTimes s p tape := by
  rw [← List.singleton_append, acceptedTimes, List.filterMap_append]
  rfl

theorem acceptedTimes_append (s p : UInt32) (xs ys : List (RiskCall × RejectReason)) :
    acceptedTimes s p (xs ++ ys) = acceptedTimes s p xs ++ acceptedTimes s p ys :=
  List.filterMap_append

/-- An accepted check of the pair. -/
theorem acceptedTimes_check (s p : UInt32) (side : Side) (quantity : Int) (now : Timestamp) :
    acceptedTimes s p [(.check s p side quantity now, .none)] = [now] := by
  simp [acceptedTimes, RiskCall.checkTime]

/-! ## Section 3: Between two renewals -/

section renewals

variable {pf : Platform} {s p : UInt32} {rm : RiskManager} {st st' : SymbolParticipantState}
  {c : RiskCall} {reason : RejectReason}

/-- Without a renewal every accepted check of the pair is counted on top. -/
theorem CheckStep.counts (h : CheckStep pf s p st c reason st')
    (hst : rm.state (packKey s.toNat p.toNat) = some st) (hc : ¬ rm.Renews pf s p c) :
    st'.ordersInWindow.toNat =
      st.ordersInWindow.toNat + (acceptedTimes s p [(c, reason)]).length := by
  have hroll : ∀ side quantity now, c = .check s p side quantity now →
      st.Within pf side quantity → st.rollWindow now = st := by
    rintro side quantity now rfl hwithin
    refine rollWindow_of_inWindow (Classical.byContradiction fun hout => hc ?_)
    exact ⟨⟨rfl, rfl⟩, st, hst, hwithin, hout⟩
  cases h with
  | kept hsame hnone => rw [hnone, hsame.ordersInWindow_eq, List.length_nil, Nat.add_zero]
  | limited side quantity now heq hwithin hreason hst' =>
    subst heq hreason
    rw [hst', hroll side quantity now rfl hwithin]
    simp [acceptedTimes]
  | counted side quantity now heq hwithin hreason hroom hst' =>
    subst heq hreason
    rw [hst', acceptedTimes_check, counted_toNat hroom, hroll side quantity now rfl hwithin]
    rfl

/-- Renewed or not, the window counts the call if it was accepted, and the
    count stays within the limit. -/
theorem CheckStep.counts_own (h : CheckStep pf s p st c reason st')
    (hle : st.ordersInWindow ≤ st.limits.maxOrdersPerSecond) :
    (acceptedTimes s p [(c, reason)]).length ≤ st'.ordersInWindow.toNat ∧
      st'.ordersInWindow ≤ st'.limits.maxOrdersPerSecond := by
  have hroll : ∀ now, (st.rollWindow now).ordersInWindow ≤ st.limits.maxOrdersPerSecond := by
    intro now
    rcases st.rollWindow_cases now with ⟨-, heq⟩ | heq
    · rw [heq]
      exact hle
    · rw [heq, UInt32.le_iff_toNat_le]
      exact Nat.zero_le _
  rw [h.limits_eq]
  cases h with
  | kept hsame hnone =>
    rw [hnone, hsame.ordersInWindow_eq]
    exact ⟨Nat.zero_le _, hle⟩
  | limited side quantity now heq hwithin hreason hst' =>
    subst heq hreason
    rw [hst']
    exact ⟨by simp [acceptedTimes], hroll now⟩
  | counted side quantity now heq hwithin hreason hroom hst' =>
    subst heq hreason
    have hlt := UInt32.lt_iff_toNat_lt.mp hroom
    have hcount := counted_toNat hroom
    rw [hst', acceptedTimes_check, UInt32.le_iff_toNat_le]
    simp only [hcount]
    exact ⟨Nat.le_add_left _ _, hlt⟩

/-- The pair has an entry under the limits, with a count within them. -/
def Metered (s p : UInt32) (limits : SymbolRiskLimits) (rm : RiskManager) : Prop :=
  ∃ st, rm.state (packKey s.toNat p.toNat) = some st ∧ st.limits = limits ∧
    st.ordersInWindow ≤ limits.maxOrdersPerSecond

variable {limits : SymbolRiskLimits}

theorem Metered.step (h : Metered s p limits rm) (pf : Platform) (hc : ¬ c.Configures s p) :
    ∃ reason rm', rm.call pf c = some (reason, rm') ∧ Metered s p limits rm' := by
  obtain ⟨st, hst, rfl, hle⟩ := h
  obtain ⟨reason, rm', st', hcall, hst', hstep⟩ := RiskManager.call_checkStep pf hst hc
  refine ⟨reason, rm', hcall, st', hst', hstep.limits_eq, ?_⟩
  rw [← hstep.limits_eq]
  exact (hstep.counts_own hle).2

theorem Metered.exec (h : Metered s p limits rm) (pf : Platform) (calls : List RiskCall)
    (hcalls : ∀ c ∈ calls, ¬ c.Configures s p) :
    ∃ replies rm', Runs.exec (RiskManager.call pf) rm calls = some (replies, rm') ∧
      Metered s p limits rm' := by
  have hstep : ∀ (_ : List (RiskCall × RejectReason)) (rm : RiskManager) (c : RiskCall),
      Metered s p limits rm → ¬ c.Configures s p →
      ∃ reason rm', rm.call pf c = some (reason, rm') ∧ Metered s p limits rm' :=
    fun _ _ _ h hc => h.step pf hc
  exact Runs.exec_history hstep calls [] rm h hcalls

/-- The window has counted at least what the tape accepted, within the limit. -/
def CountsAll (s p : UInt32) (limits : SymbolRiskLimits) (tape : List (RiskCall × RejectReason))
    (rm : RiskManager) : Prop :=
  ∃ st, rm.state (packKey s.toNat p.toNat) = some st ∧ st.limits = limits ∧
    st.ordersInWindow ≤ limits.maxOrdersPerSecond ∧
    (acceptedTimes s p tape).length ≤ st.ordersInWindow.toNat

theorem CountsAll.step {tape : List (RiskCall × RejectReason)} (h : CountsAll s p limits tape rm)
    (hc : ¬ c.Configures s p ∧ ¬ rm.Renews pf s p c) :
    ∃ reason rm', rm.call pf c = some (reason, rm') ∧
      CountsAll s p limits (tape ++ [(c, reason)]) rm' := by
  obtain ⟨st, hst, rfl, hle, hcount⟩ := h
  obtain ⟨reason, rm', st', hcall, hst', hstep⟩ := RiskManager.call_checkStep pf hst hc.1
  have hle' := (hstep.counts_own hle).2
  rw [hstep.limits_eq] at hle'
  refine ⟨reason, rm', hcall, st', hst', hstep.limits_eq, hle', ?_⟩
  rw [acceptedTimes_append, List.length_append, hstep.counts hst hc.2]
  omega

/-- **Between two renewals** at most the limit is accepted. -/
theorem Metered.accepted_le (h : Metered s p limits rm) (pf : Platform) (calls : List RiskCall)
    (hcalls : ∀ c ∈ calls, ¬ c.Configures s p) (hfirst : RenewedFirst pf s p rm calls) :
    ∃ replies rm', Runs.exec (RiskManager.call pf) rm calls = some (replies, rm') ∧
      (acceptedTimes s p (calls.zip replies)).length ≤ limits.maxOrdersPerSecond.toNat := by
  cases calls with
  | nil => exact ⟨[], rm, rfl, Nat.zero_le _⟩
  | cons c calls =>
    obtain ⟨st, hst, rfl, hle⟩ := h
    obtain ⟨reason, rm₁, st₁, hcall, hst₁, hstep⟩ :=
      RiskManager.call_checkStep pf hst (hcalls c (by simp))
    obtain ⟨hown, hle₁⟩ := hstep.counts_own hle
    rw [hstep.limits_eq] at hle₁
    -- from the first call on, the count is at least what the stretch accepted
    obtain ⟨replies, rm', hrun, st', -, -, hle', hcount⟩ := Runs.exec_along
      (P := CountsAll s p st.limits) (fun tape rm c => CountsAll.step) calls [(c, reason)] rm₁
      ⟨st₁, hst₁, hstep.limits_eq, hle₁, hown⟩
      ((hfirst reason rm₁ hcall).and_forall fun c hc => hcalls c (by simp [hc]))
    exact ⟨reason :: replies, rm',
      Runs.exec_cons_eq_some.mpr ⟨reason, rm₁, replies, hcall, hrun, rfl⟩,
      Nat.le_trans hcount (UInt32.le_iff_toNat_le.mp hle')⟩

end renewals

/-! ## Section 4: Any interval as long as a window -/

section intervals

variable {pf : Platform} {s p : UInt32} {rm : RiskManager} {st st' : SymbolParticipantState}
  {c : RiskCall} {reason : RejectReason} {earlier current : List Timestamp}

/-- For 64-bit times in order the unsigned difference is the difference. -/
theorem inWindow_iff {start now : Nat} (hle : start ≤ now) (hlt : now < 2 ^ 64) :
    InWindow start now ↔ now < start + kRateLimitWindowNs := by
  unfold InWindow
  omega

/-- The entry's window and count log the admitted times. -/
def Logs (st : SymbolParticipantState) (earlier current : List Timestamp) : Prop :=
  FixedWindow.Log kRateLimitWindowNs st.limits.maxOrdersPerSecond.toNat st.windowStart
    st.ordersInWindow.toNat earlier current

/-- Rolling the window to a time that is not before it. -/
theorem Logs.rollWindow (h : Logs st earlier current) {now : Timestamp}
    (hle : st.windowStart ≤ now) (hlt : now < 2 ^ 64) :
    ∃ earlier' current', Logs (st.rollWindow now) earlier' current' ∧
      earlier' ++ current' = earlier ++ current ∧ (st.rollWindow now).windowStart ≤ now ∧
      now < (st.rollWindow now).windowStart + kRateLimitWindowNs ∧
      ((st.rollWindow now).windowStart = st.windowStart ∨
        (st.rollWindow now).windowStart = now) := by
  by_cases hin : InWindow st.windowStart now
  · rw [rollWindow_of_inWindow hin]
    exact ⟨earlier, current, h, rfl, hle, (inWindow_iff hle hlt).mp hin, .inl rfl⟩
  · have hpast : st.windowStart + kRateLimitWindowNs ≤ now :=
      Nat.not_lt.mp (mt (inWindow_iff hle hlt).mpr hin)
    have hroll : st.rollWindow now = { st with windowStart := now, ordersInWindow := 0 } :=
      (st.rollWindow_cases now).resolve_left fun hkept => hin hkept.1
    rw [hroll]
    exact ⟨earlier ++ current, [], h.renew hpast, List.append_nil _, Nat.le_refl _,
      Nat.lt_add_of_pos_right (by decide), .inr rfl⟩

/-- **Step**: a call at a time not before the window keeps the log, with its
    own time added if it is an accepted check of the pair. -/
theorem CheckStep.logs (h : CheckStep pf s p st c reason st') (hlogs : Logs st earlier current)
    (htime : ∀ now ∈ c.checkTime s p, st.windowStart ≤ now ∧ now < 2 ^ 64) :
    ∃ earlier' current', Logs st' earlier' current' ∧
      earlier' ++ current' = earlier ++ current ++ acceptedTimes s p [(c, reason)] ∧
      (st'.windowStart = st.windowStart ∨ c.checkTime s p = some st'.windowStart) := by
  cases h with
  | kept hsame hnone =>
    refine ⟨earlier, current, ?_, by rw [hnone, List.append_nil], .inl hsame.windowStart_eq⟩
    unfold Logs
    rw [hsame.limits_eq, hsame.windowStart_eq, hsame.ordersInWindow_eq]
    exact hlogs
  | limited side quantity now heq hwithin hreason hst' =>
    subst heq hreason hst'
    have hnow : RiskCall.checkTime s p (.check s p side quantity now) = some now := by
      simp [RiskCall.checkTime]
    obtain ⟨hle, hlt⟩ := htime now hnow
    obtain ⟨earlier', current', hlogs', heq, -, -, hstart⟩ := hlogs.rollWindow hle hlt
    refine ⟨earlier', current', hlogs', by simpa [acceptedTimes] using heq, ?_⟩
    exact hstart.imp_right fun h => by rw [hnow, h]
  | counted side quantity now heq hwithin hreason hroom hst' =>
    subst heq hreason
    have hnow : RiskCall.checkTime s p (.check s p side quantity now) = some now := by
      simp [RiskCall.checkTime]
    obtain ⟨hle, hlt⟩ := htime now hnow
    obtain ⟨earlier', current', hlogs', heq, hfrom, hto, hstart⟩ := hlogs.rollWindow hle hlt
    refine ⟨earlier', current' ++ [now], ?_, ?_, ?_⟩
    · have hadmit := hlogs'.admit hfrom hto (by
        rw [rollWindow_limits]
        exact UInt32.lt_iff_toNat_lt.mp hroom)
      unfold Logs
      rw [hst']
      simpa only [counted_toNat hroom] using hadmit
    · rw [acceptedTimes_check, ← List.append_assoc, heq]
    · rw [hst']
      exact hstart.imp_right fun h => by rw [hnow]; exact congrArg some h.symm

/-- The log of a whole run, its checks of the pair coming in the order of their
    times. -/
theorem exec_logs (pf : Platform) :
    ∀ (calls : List RiskCall) (rm : RiskManager) (st : SymbolParticipantState)
      (earlier current : List Timestamp),
      rm.state (packKey s.toNat p.toNat) = some st → Logs st earlier current →
      (∀ c ∈ calls, ¬ c.Configures s p) →
      (∀ now ∈ checkTimes s p calls, st.windowStart ≤ now ∧ now < 2 ^ 64) →
      (checkTimes s p calls).Pairwise (· ≤ ·) →
      ∃ replies rm', Runs.exec (RiskManager.call pf) rm calls = some (replies, rm') ∧
        ∀ t, FixedWindow.countFrom kRateLimitWindowNs
            (earlier ++ current ++ acceptedTimes s p (calls.zip replies)) t ≤
          2 * st.limits.maxOrdersPerSecond.toNat := by
  intro calls
  induction calls with
  | nil =>
    intro rm st earlier current _ hlogs _ _ _
    refine ⟨[], rm, rfl, fun t => ?_⟩
    rw [List.zip_nil_left, acceptedTimes, List.filterMap_nil, List.append_nil]
    exact hlogs.bound t
  | cons c calls ih =>
    intro rm st earlier current hst hlogs hcalls htimes hsorted
    obtain ⟨reason, rm₁, st₁, hcall, hst₁, hstep⟩ :=
      RiskManager.call_checkStep pf hst (hcalls c (by simp))
    have hsplit : checkTimes s p (c :: calls) =
        (c.checkTime s p).toList ++ checkTimes s p calls := by
      unfold checkTimes
      cases hc : c.checkTime s p <;> simp [hc]
    rw [hsplit] at htimes hsorted
    obtain ⟨-, hsorted', hnext⟩ := List.pairwise_append.mp hsorted
    obtain ⟨earlier₁, current₁, hlogs₁, heq, hstart⟩ := hstep.logs hlogs fun now hnow =>
      htimes now (List.mem_append_left _ (by simpa using hnow))
    obtain ⟨replies, rm', hrun, hbound⟩ := ih rm₁ st₁ earlier₁ current₁ hst₁ hlogs₁
      (fun c hc => hcalls c (by simp [hc])) (fun now hnow => by
        obtain ⟨hle, hlt⟩ := htimes now (List.mem_append_right _ hnow)
        refine ⟨?_, hlt⟩
        rcases hstart with heq | heq
        · rw [heq]
          exact hle
        · exact hnext st₁.windowStart (by simp [heq]) now hnow) hsorted'
    refine ⟨reason :: replies, rm',
      Runs.exec_cons_eq_some.mpr ⟨reason, rm₁, replies, hcall, hrun, rfl⟩, fun t => ?_⟩
    have ht := hbound t
    rwa [heq, List.append_assoc, ← acceptedTimes_cons, hstep.limits_eq] at ht

end intervals

/-! ## Section 5: Whole runs -/

section runs

variable {pf : Platform} {s p : UInt32} {rm : RiskManager} {c : RiskCall}

/-- Without checks and limits of the pair its window stays as it is. -/
theorem RiskManager.call_sameRate (pf : Platform) (rm : RiskManager) (hset : ¬ c.Configures s p)
    (hcheck : ¬ c.Checks s p) :
    ∃ reason rm', rm.call pf c = some (reason, rm') ∧
      SameRate (rm.entry s.toNat p.toNat) (rm'.entry s.toNat p.toNat) := by
  cases c with
  | fill t q side quantity =>
    exact ⟨_, _, rfl, onFill_sameRate p.toNat_lt q.toNat_lt t.toNat side quantity⟩
  | setLimits t q limits =>
    refine ⟨_, _, rfl, ?_⟩
    rw [setLimits_entry_of_ne q.toNat_lt p.toNat_lt fun h => ?_]
    · exact .refl _
    · obtain ⟨hs, hp⟩ := pair_toNat.mp h
      exact hset ⟨hs.symm, hp.symm⟩
  | check t q side quantity now =>
    refine ⟨_, (rm.checkNewOrder pf t.toNat q.toNat side quantity now).2, rfl, ?_⟩
    rw [checkNewOrder_entry_of_ne p.toNat_lt q.toNat_lt fun h => ?_]
    · exact .refl _
    · obtain ⟨hs, hp⟩ := pair_toNat.mp h
      exact hcheck ⟨hs.symm, hp.symm⟩

/-- Before its first check a pair has counted nothing, and setting its limits
    gives it an entry. -/
theorem configured (pf : Platform) (limits : SymbolRiskLimits) (before : List RiskCall)
    (hbefore : ∀ c ∈ before, ¬ c.Configures s p ∧ ¬ c.Checks s p) :
    ∃ replies rm st, Runs.exec (RiskManager.call pf) {} (before ++ [.setLimits s p limits]) =
        some (replies, rm) ∧
      rm.state (packKey s.toNat p.toNat) = some st ∧ st.limits = limits ∧ st.windowStart = 0 ∧
      st.ordersInWindow = 0 := by
  have hstep : ∀ (_ : List (RiskCall × RejectReason)) (rm : RiskManager) (c : RiskCall),
      SameRate {} (rm.entry s.toNat p.toNat) → (¬ c.Configures s p ∧ ¬ c.Checks s p) →
      ∃ reason rm', rm.call pf c = some (reason, rm') ∧
        SameRate {} (rm'.entry s.toNat p.toNat) := by
    intro _ rm c hsame hc
    obtain ⟨reason, rm', hcall, hkept⟩ := rm.call_sameRate pf hc.1 hc.2
    exact ⟨reason, rm', hcall, hsame.trans hkept⟩
  obtain ⟨replies, rm, hrun, hsame⟩ := Runs.exec_history hstep before [] {} (.refl _) hbefore
  refine ⟨replies ++ [.none], rm.setLimits s.toNat p.toNat limits, _, ?_,
    RiskManager.store_state_self, rfl, hsame.windowStart_eq, hsame.ordersInWindow_eq⟩
  exact Runs.exec_append hrun rfl

end runs

/-- **Rate limiting**: once the limits of a pair are set, before its first
    check and for good, at most the limit is accepted in any stretch of calls
    without a renewal of its window past the first call, and, its checks coming
    in the order of their 64-bit times, at most twice the limit in any interval
    as long as a window. -/
theorem rate_limit_bounds_intervals (pf : Platform) (s p : UInt32) (limits : SymbolRiskLimits)
    (before after : List RiskCall)
    (hbefore : ∀ c ∈ before, ¬ c.Configures s p ∧ ¬ c.Checks s p)
    (hafter : ∀ c ∈ after, ¬ c.Configures s p)
    (hsorted : (checkTimes s p after).Pairwise (· ≤ ·))
    (hrange : ∀ now ∈ checkTimes s p after, now < 2 ^ 64) :
    ∃ ws rm replies rm', Runs.exec (RiskManager.call pf) {}
        (before ++ [.setLimits s p limits]) = some (ws, rm) ∧
      Runs.exec (RiskManager.call pf) rm after = some (replies, rm') ∧
      (∀ xs ys zs, after = xs ++ ys ++ zs →
        ∃ us rm₁ vs rm₂, Runs.exec (RiskManager.call pf) rm xs = some (us, rm₁) ∧
          Runs.exec (RiskManager.call pf) rm₁ ys = some (vs, rm₂) ∧
          (RenewedFirst pf s p rm₁ ys →
            (acceptedTimes s p (ys.zip vs)).length ≤ limits.maxOrdersPerSecond.toNat)) ∧
      ∀ t, FixedWindow.countFrom kRateLimitWindowNs (acceptedTimes s p (after.zip replies)) t ≤
        2 * limits.maxOrdersPerSecond.toNat := by
  obtain ⟨ws, rm, st, hconf, hst, rfl, hstart, hcount⟩ := configured pf limits before hbefore
  have hmetered : Metered s p st.limits rm := by
    refine ⟨st, hst, rfl, ?_⟩
    rw [hcount, UInt32.le_iff_toNat_le]
    exact Nat.zero_le _
  have hlogs : Logs st [] [] := by
    unfold Logs
    rw [hcount]
    exact FixedWindow.Log.empty _ _ _
  obtain ⟨replies, rm', hrun, hbound⟩ := exec_logs pf after rm st [] [] hst hlogs hafter
    (fun now hnow => ⟨hstart ▸ Nat.zero_le now, hrange now hnow⟩) hsorted
  refine ⟨ws, rm, replies, rm', hconf, hrun, ?_, by simpa using hbound⟩
  rintro xs ys zs rfl
  have hxs : ∀ c ∈ xs, ¬ c.Configures s p := fun c hc => hafter c (by simp [hc])
  have hys : ∀ c ∈ ys, ¬ c.Configures s p := fun c hc => hafter c (by simp [hc])
  obtain ⟨us, rm₁, hus, hmetered₁⟩ := hmetered.exec pf xs hxs
  obtain ⟨vs, rm₂, hvs, -⟩ := hmetered₁.exec pf ys hys
  refine ⟨us, rm₁, vs, rm₂, hus, hvs, fun hfirst => ?_⟩
  obtain ⟨vs', rm₂', hvs', hle⟩ := hmetered₁.accepted_le pf ys hys hfirst
  obtain ⟨rfl, -⟩ := Prod.mk.inj (Option.some.inj (hvs.symm.trans hvs'))
  exact hle

/-- Two checks at the end of a second and two at the start of the next. -/
def burst : List RiskCall :=
  [.check 1 7 .buy 1 5000000000, .check 1 7 .buy 1 5900000000, .fill 1 7 .buy 1,
   .check 1 7 .buy 1 5900000001, .check 1 7 .buy 1 6000000000, .check 1 7 .buy 1 6000000001]

/-- A limit of two orders a second: at most four in the second from 5.5 s on. -/
theorem rate_limit_bounds_intervals_burst :
    ∃ ws rm replies rm', Runs.exec (RiskManager.call .int64) {}
        [.setLimits 1 7 { maxOrdersPerSecond := 2 }] = some (ws, rm) ∧
      Runs.exec (RiskManager.call .int64) rm burst = some (replies, rm') ∧
      FixedWindow.countFrom kRateLimitWindowNs (acceptedTimes 1 7 (burst.zip replies))
        5500000000 ≤ 2 * 2 := by
  obtain ⟨ws, rm, replies, rm', hconf, hrun, -, hbound⟩ := rate_limit_bounds_intervals .int64 1 7
    { maxOrdersPerSecond := 2 } [] burst (by simp) (by simp [burst, RiskCall.Configures])
    (by decide) (by decide)
  exact ⟨ws, rm, replies, rm', hconf, hrun, hbound 5500000000⟩

end LightningLob
