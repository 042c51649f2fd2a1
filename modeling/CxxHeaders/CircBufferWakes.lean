/-
`CircBufferSCSP.h`: nobody waits in vain.

The one notification of an update wakes up the right party: it cannot be that
both sleep, as one finds the buffer full and the other one empty
(`wakes_the_waiter`). What has come to be there for a party stays there until it
looks (`next_others`).
-/
import CxxHeaders.CircBufferWaits

open Outcome

namespace CircBuffer

variable {α : Type}

namespace Waits

variable {N : Nat} {c d : Config α}

/-- The counter, in terms of what went in and out. -/
theorem sent_length (h : Inv N c) : c.sent.length = c.received.length + c.buf.dataAvailable := by
  rw [h.fifo, List.length_append, inBuffer, Ring.slice_length]

theorem test_iff (h : Inv N c) (r : Role) : test c.buf r = true ↔ 0 < c.there N r := by
  have hsent := sent_length h
  have hav := h.available
  have hsize := h.size
  cases r with
  | producer =>
    simp only [test, haveSpaceTest, Config.there, decide_eq_true_eq]
    omega
  | consumer =>
    simp only [test, haveDataTest, Config.there, decide_eq_true_eq]
    omega

/-- The other party's steps never take away what there is. -/
theorem there_le (hc : Inv N c) (hd : Inv N d) {r s : Role} (h : Leaves c d s) (hne : s ≠ r) :
    c.there N r ≤ d.there N r := by
  have hsent := sent_length hc
  have hsent' := sent_length hd
  cases r with
  | producer =>
    cases s with
    | producer => exact absurd rfl hne
    | consumer =>
      obtain ⟨-, hs, hle⟩ := h.consumer rfl
      rw [hs] at hsent'
      simp only [Config.there, hs]
      omega
  | consumer =>
    cases s with
    | consumer => exact absurd rfl hne
    | producer =>
      obtain ⟨-, hr, hle⟩ := h.producer rfl
      rw [hr] at hsent'
      simp only [Config.there, hr]
      omega

/-- Where an update does not notify, nothing comes to be there. -/
theorem there_eq_of_nobody (hc : Inv N c) (hd : Inv N d) {a : CircBuffer.Act α}
    (h : CircBuffer.next c a = .next d) (hn : notifiesBy c a = .nobody) (r : Role) :
    d.there N r = c.there N r := by
  have hsent := sent_length hc
  have hsent' := sent_length hd
  have hcount := (next_leaves c a d h).2 hn
  cases r with
  | producer =>
    simp only [Config.there]
    omega
  | consumer =>
    simp only [Config.there]
    omega

theorem isIdle_eq {r s : Role} (h : Leaves c d s) (hne : s ≠ r) : d.isIdle r = c.isIdle r := by
  cases r with
  | producer =>
    cases s with
    | producer => exact absurd rfl hne
    | consumer => simp only [Config.isIdle, (h.consumer rfl).1]
  | consumer =>
    cases s with
    | consumer => exact absurd rfl hne
    | producer => simp only [Config.isIdle, (h.producer rfl).1]

/-- What a wait returns is what there is. -/
theorem exists_available (h : Inv N c) {r : Role} (hidle : c.isIdle r = true) :
    ∃ d, CircBuffer.next c (available r) = .next d ∧ d.result r = c.there N r ∧
      (∀ v, d.there N v = c.there N v ∧ d.isIdle v = c.isIdle v) := by
  have hsent := sent_length h
  cases r with
  | producer =>
    have hidle : c.producer.pc.isIdle = true := hidle
    have hspace : c.buf.bufferSize - c.buf.dataAvailable = c.there N .producer := by
      simp only [Config.there, h.size]
      omega
    let p : Party α (List α) := ⟨.idle, c.there N .producer, c.there N .producer⟩
    have hnext : CircBuffer.next c (available .producer) = .next { c with producer := p } := by
      simp only [available, CircBuffer.next, CircBuffer.spaceAvailable]
      rw [requiring_true hidle, asserting_true h.available, hspace]
      rfl
    refine ⟨_, hnext, rfl, fun v => ⟨by cases v <;> rfl, ?_⟩⟩
    cases v with
    | producer => exact hidle.symm
    | consumer => rfl
  | consumer =>
    have hidle : c.consumer.pc.isIdle = true := hidle
    have hdata : c.buf.dataAvailable = c.there N .consumer := by
      simp only [Config.there]
      omega
    let q : Party α (Dest α) := ⟨.idle, c.there N .consumer, c.there N .consumer⟩
    have hnext : CircBuffer.next c (available .consumer) = .next { c with consumer := q } := by
      simp only [available, CircBuffer.next]
      rw [requiring_true hidle, hdata]
      rfl
    refine ⟨_, hnext, rfl, fun v => ⟨by cases v <;> rfl, ?_⟩⟩
    cases v with
    | producer => rfl
    | consumer => exact hidle.symm

/-! ## One look -/

variable {s t : State α} {r : Role} {w : Wait} {stop : Bool}

structure Good (N : Nat) (s : State α) : Prop where
  config : Inv N s.config
  idle : ∀ r, s.waits r ≠ none → s.config.isIdle r = true

/-- What a look may do: the wait returns what there is, is ended by its
`stopTest`, or goes on. -/
inductive Looked (N : Nat) (s : State α) (r : Role) (w : Wait) (stop : Bool) : State α → Prop
  | returns {config : Config α} (hthere : 0 < s.config.there N r)
      (hnext : CircBuffer.next s.config (available r) = .next config)
      (hresult : config.result r = s.config.there N r)
      (hsame : ∀ v, config.there N v = s.config.there N v ∧ config.isIdle v = s.config.isIdle v) :
      Looked N s r w stop ⟨config, Function.update s.waits r none⟩
  | throws (hthere : s.config.there N r = 0) (hstop : w.stops stop = true) :
      Looked N s r w stop { s with waits := Function.update s.waits r none }
  | goesOn (hthere : s.config.there N r = 0) (hstop : w.stops stop = false) :
      Looked N s r w stop { s with waits := Function.update s.waits r (some w) }

theorem waitAvailable_looked (h : Inv N s.config) (hidle : s.config.isIdle r = true) (w : Wait) (stop : Bool) :
    (waitAvailable s r w stop).Returns (Looked N s r w stop) := by
  have htest := test_iff h r
  unfold waitAvailable
  split
  · next ht =>
    obtain ⟨d, hd, hresult, hsame⟩ := exists_available h hidle
    rw [hd]
    exact .returns (htest.mp ht) hd hresult hsame
  · next ht =>
    have hthere : s.config.there N r = 0 := Nat.eq_zero_of_not_pos fun hp => ht (htest.mpr hp)
    split
    · next hstop => exact .throws hthere hstop
    · next hstop => exact .goesOn hthere (Bool.eq_false_iff.mpr hstop)

theorem Looked.there (h : Looked N s r w stop t) (v : Role) : t.config.there N v = s.config.there N v := by
  cases h with
  | returns _ _ _ hsame => exact (hsame v).1
  | throws | goesOn => rfl

theorem Looked.waits (h : Looked N s r w stop t) {v : Role} (hv : v ≠ r) : t.waits v = s.waits v := by
  cases h <;> exact Function.update_of_ne hv ..

theorem Looked.good (hs : Good N s) (hidle : s.config.isIdle r = true) (h : Looked N s r w stop t) :
    Good N t := by
  have hwait : ∀ v, t.waits v ≠ none → v = r ∨ s.waits v ≠ none := by
    intro v hv
    by_cases hvr : v = r
    · exact .inl hvr
    · rw [h.waits hvr] at hv
      exact .inr hv
  have hall : ∀ v, t.waits v ≠ none → s.config.isIdle v = true := by
    intro v hv
    obtain rfl | hv := hwait v hv
    · exact hidle
    · exact hs.idle v hv
  cases h with
  | returns _ hnext _ hsame =>
    have hok := next_ok hs.config (available r)
    rw [hnext] at hok
    exact ⟨hok, fun v hv => (hsame v).2.trans (hall v hv)⟩
  | throws | goesOn => exact ⟨hs.config, hall⟩

/-! ## One step -/

/-- The action is a look, the first one of the wait or another. -/
def IsLook (s : State α) (r : Role) (w : Wait) (stop : Bool) (a : Act α) : Prop :=
  a = .wait r w stop ∨ a = .look r stop ∧ s.waits r = some w

/-- What a step may do. -/
theorem next_cases (hs : Good N s) {a : Act α} (hn : next s a = .next t) :
    (∃ b, a = .call b ∧ s.waits b.role = none ∧ CircBuffer.next s.config b = .next t.config ∧
      t.waits = s.waits) ∨
    ∃ r w stop, IsLook s r w stop a ∧ s.config.isIdle r = true ∧ Looked N s r w stop t := by
  cases a with
  | call b =>
    simp only [next, bind_eq_next, requiring_eq_next] at hn
    obtain ⟨_, hwaits, d, hd, ht⟩ := hn
    cases ht
    exact .inl ⟨b, rfl, hwaits, hd, rfl⟩
  | wait r w stop =>
    simp only [next, bind_eq_next, requiring_eq_next] at hn
    obtain ⟨_, hidle, hn⟩ := hn
    have hlook := waitAvailable_looked hs.config hidle.2 w stop
    rw [hn] at hlook
    exact .inr ⟨r, w, stop, .inl rfl, hidle.2, hlook⟩
  | look r stop =>
    cases hw : s.waits r with
    | none => simp [next, hw] at hn
    | some w =>
      simp only [next, hw] at hn
      have hidle := hs.idle r (by simp [hw])
      have hlook := waitAvailable_looked hs.config hidle w stop
      rw [hn] at hlook
      exact .inr ⟨r, w, stop, .inr ⟨rfl, hw⟩, hidle, hlook⟩

theorem next_good (hs : Good N s) (a : Act α) : (next s a).Ok (Good N) := by
  have hkeeps : (next s a).Yields (Good N) := by
    intro t hn
    obtain ⟨b, rfl, hwaits, hd, htw⟩ | ⟨r, w, stop, -, hidle, hlook⟩ := next_cases hs hn
    · have hok := next_ok hs.config b
      rw [hd] at hok
      refine ⟨hok, fun r hr => ?_⟩
      rw [htw] at hr
      have hne : b.role ≠ r := fun he => hr (he ▸ hwaits)
      rw [isIdle_eq (next_leaves s.config b _ hd).1 hne]
      exact hs.idle r hr
    · exact hlook.good hs hidle
  have hsafe : next s a ≠ .failed := by
    cases a with
    | call b =>
      have hok := next_ok hs.config b
      simp only [next]
      intro hf
      by_cases hw : s.waits b.role = none
      · rw [requiring_true hw, next_bind] at hf
        cases hb : CircBuffer.next s.config b <;> simp_all
      · simp [requiring, hw] at hf
    | wait r w stop =>
      simp only [next]
      by_cases hidle : s.waits r = none ∧ s.config.isIdle r
      · rw [requiring_true hidle, next_bind]
        exact (waitAvailable_looked hs.config hidle.2 w stop).ok.not_failed
      · simp [requiring, hidle]
    | look r stop =>
      cases hw : s.waits r with
      | none => simp [next, hw]
      | some w =>
        simp only [next, hw]
        exact (waitAvailable_looked hs.config (hs.idle r (by simp [hw])) w stop).ok.not_failed
  cases hn : next s a with
  | next t => exact hkeeps t hn
  | failed => exact hsafe hn
  | blocked | ended => trivial

/-- The other party's step: the wait goes on, and what there is stays there. -/
theorem next_others (hs : Good N s) {a : Act α} (hn : next s a = .next t) (hr : signals.actor a ≠ some r) :
    t.waits r = s.waits r ∧ s.config.there N r ≤ t.config.there N r := by
  have ht : Good N t := (next_good hs a).of_next hn
  obtain ⟨b, rfl, -, hd, htw⟩ | ⟨v, w, stop, ha, -, hlook⟩ := next_cases hs hn
  · refine ⟨by rw [htw], there_le hs.config ht.config (next_leaves s.config b _ hd).1 fun he => hr ?_⟩
    rw [← he]
    rfl
  · have hne : r ≠ v := by
      rintro rfl
      obtain rfl | ⟨rfl, -⟩ := ha <;> exact hr rfl
    exact ⟨hlook.waits hne, Nat.le_of_eq (hlook.there r).symm⟩

theorem IsLook.actor {a : Act α} (h : IsLook s r w stop a) : signals.actor a = some r := by
  obtain rfl | ⟨rfl, -⟩ := h <;> rfl

theorem IsLook.sleeps {a : Act α} (h : IsLook s r w stop a) :
    signals.sleeps s a = sleepsAfter s r w stop := by
  obtain rfl | ⟨rfl, hw⟩ := h
  · rfl
  · simp only [signals, hw]

theorem IsLook.looked (hs : Good N s) {a : Act α} (h : IsLook s r w stop a) (hn : next s a = .next t) :
    Looked N s r w stop t := by
  have hactor := h.actor
  obtain ⟨b, rfl, hwaits, -⟩ | ⟨v, w', stop', ha, -, hlook⟩ := next_cases hs hn
  · obtain ha | ⟨ha, -⟩ := h <;> cases ha
  · obtain rfl | ⟨rfl, hw⟩ := h
    · obtain ha | ⟨ha, -⟩ := ha <;> cases ha
      exact hlook
    · obtain ha | ⟨ha, hw'⟩ := ha <;> cases ha
      cases hw.symm.trans hw'
      exact hlook

/-! ## Sleepers -/

theorem eq_of_ne {r v w : Role} (hr : r ≠ w) (hv : v ≠ w) : r = v := by
  cases r <;> cases v <;> cases w <;> simp_all

/-- Nobody goes to sleep who finds what he waits for, and the update that makes
it be there notifies the only one who waits. -/
theorem enough (N : Nat) : Sleepers.Enough (κ := Unit) (next (α := α)) signals (Good N)
    (fun s r _ => s.waits r ≠ none) (fun s r => 0 < s.config.there N r) where
  sleeps {s a t r c} hs hn hr hsleeps := by
    obtain ⟨b, rfl, -⟩ | ⟨v, w, stop, ha, -, hlook⟩ := next_cases hs hn
    · cases hsleeps
    · cases ha.actor.symm.trans hr
      rw [ha.sleeps, sleepsAfter] at hsleeps
      split at hsleeps
      · cases hsleeps
      · next hgoes =>
        simp only [Bool.or_eq_true, not_or] at hgoes
        cases hlook with
        | returns hthere => exact absurd ((test_iff hs.config r).mpr hthere) hgoes.1
        | throws _ hstop => exact absurd hstop hgoes.2
        | goesOn hthere => exact ⟨by simp, by simp [hthere]⟩
  keeps {s a t r c} hs hn hr hwaits hready := by
    obtain ⟨hkept, -⟩ := next_others hs hn hr
    refine ⟨hkept ▸ hwaits, fun ht => .inr ?_⟩
    obtain ⟨b, rfl, hfree, hd, -⟩ | ⟨v, w, stop, -, -, hlook⟩ := next_cases hs hn
    · have hgood : Good N t := (next_good hs (.call b)).of_next hn
      have hone : notifiesBy s.config b = .one () := by
        have hne : notifiesBy s.config b ≠ .nobody := fun hno =>
          hready (there_eq_of_nobody hs.config hgood.config hd hno r ▸ ht)
        cases hb : notifiesBy s.config b with
        | nobody => exact absurd hb hne
        | one => rfl
        | all => cases b <;> simp [notifiesBy] at hb <;> split at hb <;> cases hb
      refine ⟨hone, fun v hv => eq_of_ne (w := b.role) ?_ ?_⟩
      · exact fun he => hv (he ▸ hfree)
      · exact fun he => hr (he ▸ rfl)
    · exact absurd (hlook.there r ▸ ht) hready

/-- The other party's steps, and wake-ups. -/
def Others (r : Role) : Sleepers.Act (Act α) Role → Prop
  | .act a _ => signals.actor a ≠ some r
  | .wakeUp _ => True

theorem run_others {r : Role} {as : List (Sleepers.Act (Act α) Role)}
    {c d : Sleepers.Config (State α) Role Unit} (hs : Good N c.state) (has : ∀ a ∈ as, Others r a)
    (hrun : Runs.run (Sleepers.next next signals) c as = .next d) :
    d.state.waits r = c.state.waits r ∧ c.state.config.there N r ≤ d.state.config.there N r := by
  induction as generalizing c with
  | nil =>
    cases hrun
    exact ⟨rfl, Nat.le_refl _⟩
  | cons a as ih =>
    simp only [Runs.run, bind_eq_next] at hrun
    obtain ⟨m, hm, hrest⟩ := hrun
    have hothers := has a List.mem_cons_self
    have has' : ∀ b ∈ as, Others r b := fun b hb => has b (List.mem_cons_of_mem a hb)
    cases a with
    | wakeUp v =>
      cases hm
      exact ih (c := ⟨c.state, c.asleep.filter (·.1 ≠ v)⟩) hs has' hrest
    | act a woken =>
      have hn := (Sleepers.next_act.mp hm).2.1
      obtain ⟨hwaits, hle⟩ := next_others hs hn hothers
      obtain ⟨hwaits', hle'⟩ := ih ((next_good hs a).of_next hn) has' hrest
      exact ⟨hwaits'.trans hwaits, hle.trans hle'⟩

theorem reachable_good (hpos : 1 ≤ N) {s : State α} (h : Runs.Reachable next (Init N) s) : Good N s :=
  h.invariant (fun _ hi => ⟨init_inv hpos hi.1, fun r hr => absurd (hi.2 r) hr⟩) fun _ a hs => next_good hs a

/-- What there is for the two makes up the buffer. -/
theorem there_add (h : Inv N c) : c.there N .producer + c.there N .consumer = N := by
  have hsent := sent_length h
  have hav := h.available
  have hsize := h.size
  simp only [Config.there]
  omega

theorem asleep_there (hpos : 1 ≤ N) {c : Sleepers.Config (State α) Role Unit}
    (h : Runs.Reachable (Sleepers.next next signals) (Sleepers.Init (Init N)) c) {r : Role}
    (hr : (r, ()) ∈ c.asleep) : c.state.waits r ≠ none ∧ c.state.config.there N r = 0 := by
  obtain ⟨hwaits, hthere⟩ := Sleepers.no_lost_wakeup (enough N) (fun _ => reachable_good hpos) h (r, ()) hr
  exact ⟨hwaits, Nat.eq_zero_of_not_pos hthere⟩

/-- A party for which there is something is awake, and finds it. -/
theorem look_returns (hpos : 1 ≤ N) {c : Sleepers.Config (State α) Role Unit}
    (h : Runs.Reachable (Sleepers.next next signals) (Sleepers.Init (Init N)) c) {r : Role}
    (hwaits : c.state.waits r ≠ none) (hthere : 0 < c.state.config.there N r) (stop : Bool) :
    ∃ d, Sleepers.next next signals c (.act (.look r stop) none) = .next d ∧ d.state.waits r = none ∧
      d.state.config.result r = c.state.config.there N r := by
  have hgood := reachable_good hpos (Sleepers.reachable_base h)
  obtain ⟨w, hw⟩ := Option.ne_none_iff_exists'.mp hwaits
  have hidle := hgood.idle r hwaits
  obtain ⟨t, ht, hlook⟩ := (waitAvailable_looked hgood.config hidle w stop).exists
  have hnext : next c.state (.look r stop) = .next t := by simp only [next, hw, ht]
  have hawake : ∀ p ∈ c.asleep, signals.actor (.look r stop : Act α) ≠ some p.1 := by
    intro p hp he
    cases he
    exact Nat.ne_of_gt hthere (asleep_there hpos h hp).2
  refine ⟨⟨t, _⟩, Sleepers.next_act.mpr ⟨hawake, hnext, _, rfl, rfl⟩, ?_⟩
  cases hlook with
  | returns _ _ hresult _ => exact ⟨Function.update_self .., hresult⟩
  | throws hz | goesOn hz => exact absurd hz (Nat.ne_of_gt hthere)

/-- **Nobody waits in vain.** However the parties call, wait and are woken up:
whoever sleeps waits for what is not there, and never both, so that the one
notification of an update goes to the party it is for; what there is for a
party that waits stays there whatever the other one does, and its next look
returns all of it; and a wait ends with something there, or because its
`stopTest` ends it. No assertion fails. -/
theorem wakes_the_waiter (hpos : 1 ≤ N) {c : Sleepers.Config (State α) Role Unit}
    (h : Runs.Reachable (Sleepers.next next signals) (Sleepers.Init (Init N)) c) :
    (∀ a, next c.state a ≠ .failed) ∧
    c.state.config.there N .producer + c.state.config.there N .consumer = N ∧
    (∀ r, (r, ()) ∈ c.asleep → c.state.waits r ≠ none ∧ c.state.config.there N r = 0 ∧
      ∀ v, (v, ()) ∈ c.asleep → v = r) ∧
    (∀ r w stop a t, IsLook c.state r w stop a → next c.state a = .next t → t.waits r = none →
      0 < t.config.result r ∧ t.config.result r = c.state.config.there N r ∨ w = .orStop ∧ stop = true) ∧
    ∀ r, c.state.waits r ≠ none → 0 < c.state.config.there N r → ∀ as d, (∀ a ∈ as, Others r a) →
      Runs.run (Sleepers.next next signals) c as = .next d →
      c.state.config.there N r ≤ d.state.config.there N r ∧ ∀ stop, ∃ e,
        Sleepers.next next signals d (.act (.look r stop) none) = .next e ∧ e.state.waits r = none ∧
          e.state.config.result r = d.state.config.there N r := by
  have hgood := reachable_good hpos (Sleepers.reachable_base h)
  have hsum := there_add hgood.config
  refine ⟨fun a => (next_good hgood a).not_failed, hsum, fun r hr => ?_, fun r w stop a t ha hn ht => ?_,
    fun r hwaits hthere as d has hrun => ?_⟩
  · obtain ⟨hwaits, hthere⟩ := asleep_there hpos h hr
    refine ⟨hwaits, hthere, fun v hv => ?_⟩
    have hother := (asleep_there hpos h hv).2
    -- the cells and the elements cannot both have run out
    cases r <;> cases v <;> first | rfl | omega
  · cases ha.looked hgood hn with
    | returns hthere _ hresult _ => exact .inl ⟨hresult ▸ hthere, hresult⟩
    | throws _ hstop => exact .inr (by simpa [Wait.stops] using hstop)
    | goesOn => simp at ht
  · obtain ⟨hkept, hle⟩ := run_others hgood has hrun
    exact ⟨hle, look_returns hpos (h.run hrun) (hkept ▸ hwaits) (hthere.trans_le hle)⟩

/-- The actions of a run in which the consumer sleeps until the producer's
update of the counter wakes it up. -/
def wokenUp : List (Sleepers.Act (Act Nat) Role) :=
  [.act (.wait .consumer .untilAvailable false) none, .act (.call (.write [5])) none,
   .act (.call .producer) none, .act (.call .producer) none, .act (.call .producer) (some .consumer)]

def newState : State Nat :=
  ⟨⟨new 2 fun _ => 0, ⟨.idle, 0, 0⟩, ⟨.idle, 0, 0⟩, [], []⟩, fun _ => none⟩

theorem wakes_the_waiter_consumer : ∃ c d e : Sleepers.Config (State Nat) Role Unit,
    Runs.run (Sleepers.next next signals) ⟨newState, []⟩ wokenUp = .next c ∧
    Runs.run (Sleepers.next next signals) c [.act (.call .producer) none] = .next d ∧
    Sleepers.next next signals d (.act (.look .consumer false) none) = .next e ∧
    e.state.waits .consumer = none ∧ e.state.config.result .consumer = 1 := by
  obtain ⟨c, hc, hwaits, hthere⟩ : ∃ c, Runs.run (Sleepers.next next signals) ⟨newState, []⟩ wokenUp = .next c ∧
    c.state.waits .consumer = some .untilAvailable ∧ c.state.config.there 2 .consumer = 1 := ⟨_, rfl, rfl, rfl⟩
  obtain ⟨d, hd, hthere'⟩ : ∃ d, Runs.run (Sleepers.next next signals) c [.act (.call .producer) none] = .next d ∧
    d.state.config.there 2 .consumer = 1 := by
    cases hc
    exact ⟨_, rfl, rfl⟩
  have hinit : Sleepers.Init (Init 2) (⟨newState, []⟩ : Sleepers.Config (State Nat) Role Unit) :=
    ⟨⟨⟨_, rfl⟩, fun _ => rfl⟩, rfl⟩
  obtain ⟨-, -, -, -, hwakes⟩ := wakes_the_waiter (by decide) (.run (.init hinit) hc)
  obtain ⟨-, hlook⟩ := hwakes .consumer (by simp [hwaits]) (by simp [hthere]) _ d
    (by simp [Others, signals, Act.role]) hd
  obtain ⟨e, he, hnone, hresult⟩ := hlook false
  exact ⟨c, d, e, hc, hd, he, hnone, hresult.trans hthere'⟩

end Waits

end CircBuffer
