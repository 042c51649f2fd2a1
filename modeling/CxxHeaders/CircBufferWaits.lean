/-
`CircBufferSCSP.h`: the two parties wait for each other.

`waitSpaceAvailable` and `waitDataAvailable` look at the counter under the lock
and sleep on the one condition variable of the buffer as long as they find it
full or empty (`next`, with the sleepers of `signals`). Every update of the
counter is a `notify_one`.
-/
import CxxHeaders.CircBufferFifo
import CxxHeaders.Sleepers
import Mathlib.Logic.Function.Basic

open Outcome

namespace CircBuffer

variable {α δ : Type}

inductive Role where
  | producer
  | consumer
  deriving DecidableEq

/-- Whose call or step it is. -/
def Act.role : Act α → Role
  | .write _ | .spaceAvailable | .haveWritten _ | .producer => .producer
  | .read _ | .dataAvailable | .haveRead _ | .consumer => .consumer

/-- The party's next step updates the counter. -/
def Pc.isCopied : Pc α δ → Bool
  | .copied .. => true
  | _ => false

def Config.isIdle (c : Config α) : Role → Bool
  | .producer => c.producer.pc.isIdle
  | .consumer => c.consumer.pc.isIdle

/-- What the last call returned. -/
def Config.result (c : Config α) : Role → Nat
  | .producer => c.producer.result
  | .consumer => c.consumer.result

namespace Waits

def haveSpaceTest (in_ bufferSize : Nat) : Bool := in_ ≠ bufferSize

def haveDataTest (in_ _bufferSize : Nat) : Bool := in_ ≠ 0

/-- `Condition::test` of the party's wait. -/
def test (b : CircBuffer α) : Role → Bool
  | .producer => haveSpaceTest b.dataAvailable b.bufferSize
  | .consumer => haveDataTest b.dataAvailable b.bufferSize

inductive Wait where
  /-- `waitSpaceAvailable()` and `waitDataAvailable()`. -/
  | untilAvailable
  /-- With a `stopTest`, and `wait_for` in place of `wait`. -/
  | orStop
  deriving DecidableEq

structure State (α : Type) where
  config : Config α
  /-- The wait that the party is in. -/
  waits : Role → Option Wait

inductive Act (α : Type) where
  | call (a : CircBuffer.Act α)
  /-- `waitAvailable` begins. `stop`: `stopTest` would throw. -/
  | wait (r : Role) (w : Wait) (stop : Bool)
  /-- It looks again. -/
  | look (r : Role) (stop : Bool)

/-- What a wait returns. -/
def available : Role → CircBuffer.Act α
  | .producer => .spaceAvailable
  | .consumer => .dataAvailable

/-- Does `stopTest` end the wait? -/
def Wait.stops (w : Wait) (stop : Bool) : Bool := w = .orStop && stop

/-- The loop of `waitAvailable`, from one look to the next. -/
def waitAvailable (s : State α) (r : Role) (w : Wait) (stop : Bool) : Outcome (State α) :=
  if test s.config.buf r then do
    let config ← CircBuffer.next s.config (available r)
    return ⟨config, Function.update s.waits r none⟩
  else if w.stops stop then return { s with waits := Function.update s.waits r none }
  else return { s with waits := Function.update s.waits r (some w) }

def next (s : State α) : Act α → Outcome (State α)
  | .call a => do
    requiring (s.waits a.role = none)
    return { s with config := ← CircBuffer.next s.config a }
  | .wait r w stop => do
    requiring (s.waits r = none ∧ s.config.isIdle r)
    waitAvailable s r w stop
  | .look r stop =>
    match s.waits r with
    | some w => waitAvailable s r w stop
    | none => .blocked

def Init (bufferSize : Nat) (s : State α) : Prop :=
  CircBuffer.Init bufferSize s.config ∧ ∀ r, s.waits r = none

/-- Where a look ends that finds nothing. -/
def sleepsAfter (s : State α) (r : Role) (w : Wait) (stop : Bool) : Option Unit :=
  if test s.config.buf r || w.stops stop then none else some ()

/-- An update of the counter notifies. -/
def notifiesBy (c : Config α) : CircBuffer.Act α → Notify Unit
  | .producer => if c.producer.pc.isCopied then .one () else .nobody
  | .consumer => if c.consumer.pc.isCopied then .one () else .nobody
  | _ => .nobody

def signals : Signals (State α) (Act α) Role Unit where
  actor
    | .call a => some a.role
    | .wait r _ _ | .look r _ => some r
  sleeps s
    | .call _ => none
    | .wait r w stop => sleepsAfter s r w stop
    | .look r stop =>
      match s.waits r with
      | some w => sleepsAfter s r w stop
      | none => none
  notifies s
    | .call a => notifiesBy s.config a
    | _ => .nobody

end Waits

/-! ## One step of a party -/

/-- What `Party.step` may do. -/
inductive Party.Stepped (A : Actions α δ) (b : CircBuffer α) (p : Party α δ) :
    CircBuffer α × Party α δ × List α → Prop where
  | nothing {d} : p.pc = .entered d → A.availableUntilBufferEnd b = .next 0 →
      Stepped A b p (b, { p with pc := .idle, result := 0 }, [])
  | begins {d aUBE} : p.pc = .entered d → A.availableUntilBufferEnd b = .next aUBE → aUBE ≠ 0 →
      Stepped A b p (b, { p with pc := .loop aUBE 0 d }, [])
  | copiesAll {aUBE transferred d b' xs rest} : p.pc = .loop aUBE transferred d → A.size d ≤ aUBE →
      A.copyAction b d (A.size d) = .next (b', xs, rest) →
      Stepped A b p (b', { p with pc := .copied xs (.doneNoRet (transferred + A.size d)) }, [])
  | copiesSome {aUBE transferred d b' xs rest} : p.pc = .loop aUBE transferred d → aUBE < A.size d →
      A.copyAction b d aUBE = .next (b', xs, rest) →
      Stepped A b p (b', { p with pc := .copied xs (.doneRetUbe (transferred + aUBE) rest) }, [])
  | updates {xs after b' ret} : p.pc = .copied xs after → A.update b xs.length = .next (b', ret) →
      Stepped A b p
        (b', { p with pc := .updated xs.length ret after, granted := p.granted - xs.length }, xs)
  | returnsAll {size ret total b'} : p.pc = .updated size ret (.doneNoRet total) → A.move b size = .next b' →
      Stepped A b p (b', { p with pc := .idle, result := total }, [])
  | returnsSome {size ret total rest b'} : p.pc = .updated size ret (.doneRetUbe total rest) →
      A.move b size = .next b' → A.retUbe b' ret = .next 0 →
      Stepped A b p (b', { p with pc := .idle, result := total }, [])
  | goesOn {size ret total rest b' aUBE} : p.pc = .updated size ret (.doneRetUbe total rest) →
      A.move b size = .next b' → A.retUbe b' ret = .next aUBE → aUBE ≠ 0 →
      Stepped A b p (b', { p with pc := .loop aUBE total rest }, [])
  | returns {size ret left b'} : p.pc = .updated size ret .caller → A.move b size = .next b' →
      A.ret b' ret = .next left → Stepped A b p (b', ⟨.idle, left, left⟩, [])

theorem Party.step_stepped {A : Actions α δ} {b : CircBuffer α} {p : Party α δ} :
    (p.step A b).Yields (Stepped A b p) := by
  intro r hr
  cases hp : p.pc with
  | idle => simp [Party.step, hp] at hr
  | entered d =>
    simp only [Party.step, hp, bind_eq_next, asserting_eq_next] at hr
    obtain ⟨_, _, aUBE, hube, hr⟩ := hr
    split at hr
    · next h0 =>
      cases hr
      exact .nothing hp (h0 ▸ hube)
    · next h0 =>
      cases hr
      exact .begins hp hube h0
  | loop aUBE transferred d =>
    simp only [Party.step, hp, bind_eq_next, asserting_eq_next] at hr
    obtain ⟨_, _, hr⟩ := hr
    split at hr
    · next hge =>
      simp only [bind_eq_next] at hr
      obtain ⟨t, hcopy, hr⟩ := hr
      cases hr
      exact .copiesAll hp hge hcopy
    · next hlt =>
      simp only [bind_eq_next, asserting_eq_next] at hr
      obtain ⟨_, _, t, hcopy, hr⟩ := hr
      cases hr
      exact .copiesSome hp (Nat.lt_of_not_le hlt) hcopy
  | copied xs after =>
    simp only [Party.step, hp, bind_eq_next] at hr
    obtain ⟨t, hupdate, hr⟩ := hr
    cases hr
    exact .updates hp hupdate
  | updated size ret after =>
    simp only [Party.step, hp, bind_eq_next] at hr
    obtain ⟨b', hmove, hr⟩ := hr
    cases after with
    | doneNoRet total =>
      cases hr
      exact .returnsAll hp hmove
    | doneRetUbe total rest =>
      simp only [bind_eq_next] at hr
      obtain ⟨aUBE, hube, hr⟩ := hr
      split at hr
      · next h0 =>
        cases hr
        exact .returnsSome hp hmove (h0 ▸ hube)
      · next h0 =>
        cases hr
        exact .goesOn hp hmove hube h0
    | caller =>
      simp only [bind_eq_next] at hr
      obtain ⟨left, hret, hr⟩ := hr
      cases hr
      exact .returns hp hmove hret

/-- What a party's step does to the buffer, if its parts do. -/
theorem Party.step_buf {A : Actions α δ} {R : CircBuffer α → List α → CircBuffer α → Prop}
    (hrefl : ∀ b, R b [] b) (hcopy : ∀ b d n, (A.copyAction b d n).Yields fun r => R b [] r.1)
    (hupdate : ∀ b xs, (A.update b xs.length).Yields fun r => R b xs r.1)
    (hmove : ∀ b n, (A.move b n).Yields (R b [])) (b : CircBuffer α) (p : Party α δ) :
    (p.step A b).Yields fun r => R b r.2.2 r.1 ∧ (p.pc.isCopied = false → r.2.2 = []) := by
  intro r hr
  have hnil : p.pc.isCopied = false → ([] : List α) = [] := fun _ => rfl
  cases Party.step_stepped r hr with
  | nothing | begins => exact ⟨hrefl b, hnil⟩
  | copiesAll _ _ h | copiesSome _ _ h => exact ⟨hcopy _ _ _ _ h, hnil⟩
  | updates hp h => exact ⟨hupdate _ _ _ h, fun hn => by rw [hp] at hn; cases hn⟩
  | returnsAll _ h | returnsSome _ h | goesOn _ h | returns _ h => exact ⟨hmove _ _ _ h, hnil⟩

/-- The counter after `xs` were handed over by the producer. -/
def Counted (b : CircBuffer α) (xs : List α) (b' : CircBuffer α) : Prop :=
  b'.dataAvailable = b.dataAvailable + xs.length

theorem producer_step_counted (b : CircBuffer α) (p : Party α (List α)) :
    (p.step writeActions b).Yields fun r => Counted b r.2.2 r.1 ∧ (p.pc.isCopied = false → r.2.2 = []) := by
  refine Party.step_buf (fun b => rfl) (fun b d n => ?_) (fun b xs => ?_) (fun b n => ?_) b p
  · simp only [writeActions, yields_bind, yields_asserting]
    exact fun _ _ => yields_next.mpr rfl
  · simp only [writeActions, increaseDataAvailable, yields_bind, yields_asserting]
    exact fun _ => yields_next.mpr rfl
  · simp only [writeActions, moveWriteOffset, yields_bind]
    exact fun _ _ => yields_next.mpr rfl

theorem consumer_step_counted (b : CircBuffer α) (p : Party α (Dest α)) :
    (p.step readActions b).Yields fun r => Counted r.1 r.2.2 b ∧ (p.pc.isCopied = false → r.2.2 = []) := by
  refine Party.step_buf (R := fun b xs b' => Counted b' xs b) (fun b => rfl) (fun b d n => ?_)
    (fun b xs => ?_) (fun b n => ?_) b p
  · simp only [readActions, yields_bind, yields_asserting]
    exact fun _ _ => yields_next.mpr rfl
  · simp only [readActions, decreaseDataAvailable, yields_bind, yields_asserting]
    exact fun _ hle => yields_next.mpr (Nat.sub_add_cancel hle).symm
  · simp only [readActions, moveReadOffset, yields_bind]
    exact fun _ _ => yields_next.mpr rfl

/-! ## What a step leaves alone -/

/-- What a step of one party leaves to the other one: at least what was there. -/
structure Leaves (c d : Config α) (r : Role) : Prop where
  producer : r = .producer → d.consumer = c.consumer ∧ d.received = c.received ∧
    c.buf.dataAvailable ≤ d.buf.dataAvailable
  consumer : r = .consumer → d.producer = c.producer ∧ d.sent = c.sent ∧
    d.buf.dataAvailable ≤ c.buf.dataAvailable

theorem Leaves.of_producer {c d : Config α}
    (hp : d.consumer = c.consumer ∧ d.received = c.received ∧ c.buf.dataAvailable ≤ d.buf.dataAvailable) :
    Leaves c d .producer where
  producer _ := hp
  consumer h := by cases h

theorem Leaves.of_consumer {c d : Config α}
    (hq : d.producer = c.producer ∧ d.sent = c.sent ∧ d.buf.dataAvailable ≤ c.buf.dataAvailable) :
    Leaves c d .consumer where
  producer h := by cases h
  consumer _ := hq

/-- Only an update moves the counter, and it notifies. -/
theorem next_leaves (c : Config α) (a : Act α) : (next c a).Yields fun d => Leaves c d a.role ∧
    (Waits.notifiesBy c a = .nobody → d.buf.dataAvailable = c.buf.dataAvailable) := by
  cases a with
  | write _ | haveWritten _ =>
    simp only [next, yields_bind, yields_requiring]
    exact fun _ => yields_next.mpr ⟨.of_producer ⟨rfl, rfl, Nat.le_refl _⟩, fun _ => rfl⟩
  | spaceAvailable =>
    simp only [next, spaceAvailable, yields_bind, yields_requiring, yields_asserting]
    exact fun _ _ => yields_next.mpr (yields_next.mpr ⟨.of_producer ⟨rfl, rfl, Nat.le_refl _⟩, fun _ => rfl⟩)
  | read _ | dataAvailable | haveRead _ =>
    simp only [next, yields_bind, yields_requiring]
    exact fun _ => yields_next.mpr ⟨.of_consumer ⟨rfl, rfl, Nat.le_refl _⟩, fun _ => rfl⟩
  | producer =>
    simp only [next, yields_bind]
    refine (producer_step_counted _ _).mono fun r hr => yields_next.mpr ⟨?_, fun hn => ?_⟩
    · exact .of_producer ⟨rfl, rfl, (Nat.le_add_right ..).trans_eq hr.1.symm⟩
    · obtain ⟨hcount, hnil⟩ := hr
      have hcopied : c.producer.pc.isCopied = false := by
        by_contra h
        simp [Waits.notifiesBy, h] at hn
      rw [hnil hcopied] at hcount
      exact hcount
  | consumer =>
    simp only [next, yields_bind]
    refine (consumer_step_counted _ _).mono fun r hr => yields_next.mpr ⟨?_, fun hn => ?_⟩
    · exact .of_consumer ⟨rfl, rfl, (Nat.le_add_right ..).trans_eq hr.1.symm⟩
    · obtain ⟨hcount, hnil⟩ := hr
      have hcopied : c.consumer.pc.isCopied = false := by
        by_contra h
        simp [Waits.notifiesBy, h] at hn
      rw [hnil hcopied] at hcount
      exact hcount.symm

/-- What there is for a party: cells to be written, or elements to be read. -/
def Config.there (bufferSize : Nat) (c : Config α) : Role → Nat
  | .producer => bufferSize + c.received.length - c.sent.length
  | .consumer => c.sent.length - c.received.length

end CircBuffer
