/-
The registration methods act at one point in time.

Each method does what it is for with the last of its system calls, however often
it was interrupted before; `epollInsertOrModify`, which needs two, finds the file
descriptor still there, or another thread removed it in between (`Inv.found`).
-/
import CxxHeaders.EventLoopRegistration

open Outcome

namespace EventLoop

variable {ω η : Type}

namespace Registry

structure Inv (c : Registry ω η) : Prop where
  linear : Linear c.log c.interest
  ordered : Ordered c.log
  within : ∀ w call, c.call w = some call → call.Within c.log.length
  found : ∀ w call n, c.call w = some call → call.found = some n →
    c.interest call.method.fd = none → Removed c.log n w call.method.fd

variable {c : Registry ω η}

theorem init_inv (h : Init c) : Inv c := by
  obtain ⟨hi, hc, hl⟩ := h
  refine ⟨?_, by simp [Ordered, hl], by simp [hc], by simp [hc]⟩
  rw [hl, show c.interest = fun _ => none from funext hi]
  exact .nil

theorem within_le {call : Call η} {m n : Nat} (h : call.Within m) (hle : m ≤ n) : call.Within n :=
  ⟨h.1.trans hle, fun found hf => ⟨(h.2 found hf).1, (h.2 found hf).2.trans hle⟩⟩

theorem ordered_append {log : List (Returned ω η)} (h : Ordered log) {x : Returned ω η}
    (hx : x.call.Within log.length) : Ordered (log ++ [x]) := by
  intro i y hy
  rcases Nat.lt_or_ge i log.length with hi | hi
  · rw [List.getElem?_append_left hi] at hy
    exact h i y hy
  · rw [List.getElem?_append_right hi, List.getElem?_singleton] at hy
    split at hy
    · cases hy
      exact within_le hx hi
    · cases hy

/-- A `remove` that has removed something. -/
theorem removed_of_spec {m : Method η} {s : Interest η} {fd : Int} (h : (spec m s).1 fd = none)
    (hs : s fd ≠ none) : m = .remove fd ∧ (spec m s).2 = .bool true := by
  cases m with
  | remove f =>
    cases hf : s f with
    | none =>
      simp only [spec, Method.body, Method.fd, hf] at h
      exact absurd h hs
    | some x =>
      have hfd : fd = f := Classical.byContradiction fun hne => by
        simp only [spec, Method.body, Method.fd, hf, Function.update_of_ne hne] at h
        exact hs h
      subst hfd
      exact ⟨rfl, by simp [spec, Method.body, Method.fd, hf]⟩
  | _ f =>
    exfalso
    cases hf : s f with
    | none | some x =>
      by_cases hne : fd = f
      · subst hne
        simp_all [spec, Method.body, Method.fd]
      · simp_all [spec, Method.body, Method.fd]

variable [DecidableEq ω]

/-- A call returns. -/
theorem Inv.finish (h : Inv c) {w : ω} {call : Call η} {r : Result} {interest : Interest η}
    (hc : c.call w = some call) (hl : Linear (c.log ++ [⟨w, call, r⟩]) interest)
    (hr : ∀ fd, interest fd = none → c.interest fd ≠ none → call.method = .remove fd ∧ r = .bool true) :
    Inv { c.finish w call r with interest } := by
  have hcalls : ∀ v x, (c.finish w call r).call v = some x → v ≠ w ∧ c.call v = some x := by
    intro v x hx
    by_cases hvw : v = w
    · rw [hvw] at hx
      cases (Function.update_self ..).symm.trans hx
    · exact ⟨hvw, (Function.update_of_ne hvw ..).symm.trans hx⟩
  refine ⟨hl, ordered_append h.ordered (h.within w call hc), fun v x hx => ?_, fun v x n hx hf hn => ?_⟩
  · exact within_le (h.within v x (hcalls v x hx).2) (by simp [Registry.finish])
  · obtain ⟨hvw, hv⟩ := hcalls v x hx
    let y : Returned ω η := ⟨w, call, r⟩
    have hdrop : (c.log ++ [y]).drop n = c.log.drop n ++ [y] :=
      List.drop_append_of_le_length ((h.within v x hv).2 n hf).2
    suffices hr : ∃ z ∈ c.log.drop n ++ [y], z.thread ≠ v ∧ z.call.method = .remove x.method.fd ∧
        z.result = .bool true by
      rw [← hdrop] at hr
      exact hr
    -- either it was gone already, or this is the `remove`
    by_cases hold : c.interest x.method.fd = none
    · obtain ⟨z, hz, hrest⟩ := h.found v x n hv hf hold
      exact ⟨z, List.mem_append_left _ hz, hrest⟩
    · obtain ⟨hm, hres⟩ := hr _ hn hold
      exact ⟨y, List.mem_append_right _ (List.mem_singleton.mpr rfl), hvw.symm, hm, hres⟩

theorem Inv.acts (h : Inv c) {w : ω} {call : Call η} (hc : c.call w = some call) :
    Inv { c.finish w call (spec call.method c.interest).2 with
      interest := (spec call.method c.interest).1 } :=
  h.finish hc (.acts w call h.linear) fun _ hn hs => removed_of_spec hn hs

theorem Inv.throws (h : Inv c) {w : ω} {call : Call η} {e : Errno} (hc : c.call w = some call)
    (hl : Linear (c.log ++ [⟨w, call, .thrown e⟩]) c.interest) : Inv (c.finish w call (.thrown e)) :=
  h.finish hc hl fun _ hn hs => absurd hn hs

/-! ## System calls -/

theorem epollCtl_error {op : Op} {fd : Int} {e : Entry η} {s : Interest η} {errno : Errno}
    (h : EventLoop.epollCtl op fd e s = .error errno) :
    (op = .add ∧ ∃ x, s fd = some x ∧ errno = EEXIST) ∨ (op ≠ .add ∧ s fd = none ∧ errno = ENOENT) := by
  cases op <;> cases hs : s fd <;> simp_all [EventLoop.epollCtl]

omit [DecidableEq ω] in
theorem answer_ok {call : Call η} {fault : Option Errno} {interest : Interest η}
    (h : c.answer call fault = .ok interest) :
    (spec call.method c.interest) = (interest, call.succeeded) := by
  cases fault with
  | some e => cases h
  | none =>
    simp only [answer, epollCtl, Call.op] at h
    cases hb : call.method.body with
    | ctl op =>
      cases op <;> cases hs : c.interest call.method.fd <;> simp_all [spec, Call.succeeded]
    | insert | remove =>
      cases hs : c.interest call.method.fd <;> simp_all [spec, Call.succeeded]
    | insertOrModify =>
      cases hm : call.modifying <;> cases hs : c.interest call.method.fd <;>
        simp_all [spec, Call.succeeded]

omit [DecidableEq ω] in
/-- A call that cannot be made because of what is registered: the method finds
that out, or goes on with the other one, or is overtaken. -/
theorem answer_error {call : Call η} {errno : Errno} (h : c.answer call none = .error errno) :
    (call.failed errno = .modify ∧ c.interest call.method.fd ≠ none ∧ call.method.body = .insertOrModify) ∨
    (call.failed errno = .return_ (spec call.method c.interest).2 ∧
      (spec call.method c.interest).1 = c.interest) ∨
    (call.failed errno = .return_ (.thrown ENOENT) ∧ call.modifying = true ∧
      c.interest call.method.fd = none) := by
  obtain ⟨hop, x, hs, rfl⟩ | ⟨hop, hs, rfl⟩ := epollCtl_error h
  · cases hb : call.method.body with
    | ctl op =>
      obtain rfl : op = .add := by simpa [Call.op, hb] using hop
      exact .inr (.inl (by simp [Call.failed, spec, hb, hs, EEXIST]))
    | insert => exact .inr (.inl (by simp [Call.failed, spec, hb, hs]))
    | insertOrModify =>
      have hm : call.modifying ≠ true := fun hm => by simp [Call.op, hb, hm] at hop
      exact .inl ⟨by simp [Call.failed, hb, hm], by simp [hs], rfl⟩
    | remove => simp [Call.op, hb] at hop
  · cases hb : call.method.body with
    | ctl op =>
      have hop : op ≠ .add := by simpa [Call.op, hb] using hop
      cases op with
      | add => exact absurd rfl hop
      | mod | del => exact .inr (.inl (by simp [Call.failed, spec, hb, hs, ENOENT]))
    | insert => simp [Call.op, hb] at hop
    | insertOrModify =>
      have hm : call.modifying = true := Classical.byContradiction fun hm => by
        simp [Call.op, hb, hm] at hop
      exact .inr (.inr ⟨by simp [Call.failed, hb, hm, ENOENT, EEXIST], hm, hs⟩)
    | remove => exact .inr (.inl (by simp [Call.failed, spec, hb, hs, ENOENT]))

/-- A call that fails for another reason is made again, or the method throws. -/
theorem failed_fault {c : Call η} {e : Errno} (he : e ≠ EEXIST ∧ e ≠ ENOENT) :
    c.failed e = .again ∨ c.failed e = .return_ (.thrown e) ∧ e ≠ .eintr ∧ e ≠ .eagain := by
  by_cases hi : e = .eintr
  · cases hb : c.method.body <;> simp [Call.failed, hb, hi, EEXIST]
  · by_cases ha : e = .eagain
    · cases hb : c.method.body <;> simp [Call.failed, hb, ha, EEXIST]
    · cases hb : c.method.body <;> simp [Call.failed, hb, hi, ha, he]

/-! ## Steps -/

/-- A call goes on: none returns, and what it has found is registered. -/
theorem Inv.setCall (h : Inv c) {w : ω} {call : Call η} (hs : call.Within c.log.length)
    (hm : call.found ≠ none → c.interest call.method.fd ≠ none) :
    Inv (c.setCall w (some call)) := by
  have hcall : ∀ v x, (c.setCall w (some call)).call v = some x → x = call ∨ c.call v = some x := by
    intro v x hx
    by_cases hv : v = w
    · subst hv
      simp only [Registry.setCall, Function.update_self, Option.some.injEq] at hx
      exact .inl hx.symm
    · simp only [Registry.setCall, Function.update_of_ne hv] at hx
      exact .inr hx
  refine ⟨h.linear, h.ordered, fun v x hx => ?_, fun v x n hx hf hn => ?_⟩
  · obtain rfl | hx := hcall v x hx
    · exact hs
    · exact h.within v x hx
  · obtain rfl | hx := hcall v x hx
    · exact absurd hn (hm (by simp [hf]))
    · exact h.found v x n hx hf hn

theorem epollCtl_inv (h : Inv c) {w : ω} {call : Call η} (hc : c.call w = some call)
    (fault : Option Errno) : (next c (.epollCtl w fault)).Ok Inv := by
  simp only [next, hc]
  rw [Outcome.ok_bind, Outcome.ok_requiring]
  intro hf
  cases ha : c.answer call fault with
  | ok interest =>
    have hspec := answer_ok ha
    have hacts := h.acts hc
    rw [hspec] at hacts
    exact hacts
  | error errno =>
    cases fault with
    | some e =>
      obtain rfl : e = errno := Except.error.inj ha
      have he : e ≠ EEXIST ∧ e ≠ ENOENT := ⟨fun h => hf.1 (h ▸ rfl), fun h => hf.2 (h ▸ rfl)⟩
      obtain hagain | ⟨hthrow, hne⟩ := failed_fault (c := call) he
      · simp only [hagain]
        exact h
      · simp only [hthrow]
        exact h.throws hc (.faults w call e h.linear hne he)
    | none =>
      obtain ⟨hv, hfound, -⟩ | ⟨hv, hspec⟩ | ⟨hv, hm, hn⟩ := answer_error ha
      · simp only [hv]
        have hwithin := h.within w call hc
        refine h.setCall ⟨hwithin.1, fun found hf => ?_⟩ fun _ => hfound
        cases hf
        exact ⟨hwithin.1, le_rfl⟩
      · simp only [hv]
        have hacts := h.acts hc
        rw [hspec] at hacts
        exact hacts
      · simp only [hv]
        obtain ⟨found, hf⟩ := Option.isSome_iff_exists.mp hm
        exact h.throws hc (.overtaken w call found h.linear hf hn (h.found w call found hc hf hn))

theorem next_inv (h : Inv c) (a : RegistryAct ω η) : (next c a).Ok Inv := by
  cases a with
  | call w method =>
    simp only [next]
    cases c.call w with
    | none => exact h.setCall ⟨le_rfl, fun _ hf => by cases hf⟩ fun hf => absurd rfl hf
    | some _ => trivial
  | epollCtl w fault =>
    cases hc : c.call w with
    | none =>
      simp only [next, hc]
      trivial
    | some call => exact epollCtl_inv h hc fault

theorem reachable_inv (h : Runs.Reachable next Init c) : Inv c :=
  h.invariant (fun _ => init_inv) fun _ a h => next_inv h a

/-- A system call that no fault interrupts is the method's last one, or the
first of its two. -/
theorem next_epollCtl {w : ω} {call : Call η} (hc : c.call w = some call) :
    ∃ d, next c (.epollCtl w none) = .next d ∧
      ((∃ r, d.log = c.log ++ [⟨w, call, r⟩] ∧ d.call w = none) ∨
        call.found = none ∧ d.call w = some { call with found := some c.log.length }) := by
  simp only [next, hc]
  rw [Outcome.requiring_true ⟨by simp, by simp⟩]
  cases ha : c.answer call none with
  | ok interest => exact ⟨_, rfl, .inl ⟨_, rfl, Function.update_self ..⟩⟩
  | error errno =>
    obtain ⟨hv, -, hb⟩ | ⟨hv, -⟩ | ⟨hv, -, -⟩ := answer_error ha
    · have hm : call.found = none := by
        cases hm : call.found with
        | none => rfl
        | some found =>
          simp only [Call.failed, Call.modifying, hb, hm, Option.isSome_some, not_true_eq_false, and_false,
            if_false] at hv
          split at hv <;> cases hv
      exact ⟨c.setCall w (some { call with found := some c.log.length }), by simp [hv],
        .inr ⟨hm, Function.update_self ..⟩⟩
    · exact ⟨_, by simp only [hv]; rfl, .inl ⟨_, rfl, Function.update_self ..⟩⟩
    · exact ⟨_, by simp only [hv]; rfl, .inl ⟨_, rfl, Function.update_self ..⟩⟩

/-- **The registration methods act at one point in time.** Whatever threads call
them and however their system calls fail, what is registered and what every
method has returned are those of the calls made one after another, in the order
of their last system calls, each of which is made after the method began; except
that a method that throws has done nothing, which happens when `epoll_ctl` fails
for good, or when another thread removed the file descriptor between the two
system calls of `epollInsertOrModify`. A method in progress has made its last
system call with its second uninterrupted one. -/
theorem linearizes (h : Runs.Reachable next Init c) :
    (Linear c.log c.interest ∧ Ordered c.log) ∧ ∀ w call, c.call w = some call →
      ∃ d, next c (.epollCtl w none) = .next d ∧
        ((∃ r, d.log = c.log ++ [⟨w, call, r⟩] ∧ d.call w = none) ∨
          call.found = none ∧ d.call w = some { call with found := some c.log.length }) :=
  ⟨⟨(reachable_inv h).linear, (reachable_inv h).ordered⟩, fun _ _ hc => next_epollCtl hc⟩

def noCalls : Registry Bool Nat := ⟨fun _ => none, fun _ => none, []⟩

/-- One thread finds a file descriptor registered and is interrupted; it is
removed by the other thread before the `EPOLL_CTL_MOD`. -/
theorem linearizes_overtaken : ∃ c : Registry Bool Nat,
    Runs.run next noCalls [.call true (.insertDisabled 3), .epollCtl true none,
      .call false (.insertOrModify 3 EPOLLIN 7), .epollCtl false (some .eintr), .epollCtl false none,
      .call true (.remove 3), .epollCtl true none, .epollCtl false (some .eintr), .epollCtl false none] = .next c ∧
    c.log.map Returned.result = [.void, .bool true, .thrown ENOENT] ∧ Linear c.log c.interest := by
  obtain ⟨c, hrun, hlog⟩ : ∃ c : Registry Bool Nat,
      Runs.run next noCalls [.call true (.insertDisabled 3), .epollCtl true none,
        .call false (.insertOrModify 3 EPOLLIN 7), .epollCtl false (some .eintr), .epollCtl false none,
        .call true (.remove 3), .epollCtl true none, .epollCtl false (some .eintr), .epollCtl false none] =
          .next c ∧ c.log.map Returned.result = [.void, .bool true, .thrown ENOENT] := ⟨_, rfl, rfl⟩
  have hinit : Init noCalls := ⟨fun _ => rfl, fun _ => rfl, rfl⟩
  exact ⟨c, hrun, hlog, (linearizes (.run (.init hinit) hrun)).1.1⟩

end Registry

end EventLoop
