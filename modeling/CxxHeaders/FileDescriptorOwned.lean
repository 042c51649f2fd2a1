/-
What is open has exactly one owner, whatever is moved, reset and released, and
to whom (`owned_once`); so it is closed once, and by nobody else. A step of an
object closes what it owns, or hands it over, or gets a new one.
-/
import CxxHeaders.FileDescriptor
import CxxHeaders.Ownership

open Outcome

namespace FileDescriptor

variable {ω : Type} [DecidableEq ω]

/-! ## Owners -/

structure Inv (c : Config ω) : Prop where
  exclusive : Exclusive c.own fun fd => c.isOpen fd = true
  nonneg : ∀ fd, c.isOpen fd = true → 0 ≤ fd
  closes : ∀ p ∈ c.closes, p.2 = true

variable {c : Config ω} {w : ω}

namespace Config

theorem own_setFd (c : Config ω) (w : ω) (fd : Option Int) :
    (c.setFd w fd).own = Function.update c.own (.object w) (owns fd) := by
  funext p
  by_cases hp : p = .object w
  · rw [hp, Function.update_self]
    simp [own, setFd]
  · rw [Function.update_of_ne hp]
    cases p with
    | object v =>
      have hv : v ≠ w := fun hv => hp (by rw [hv])
      simp [own, setFd, hv]
    | user fd => rfl

theorem own_setMine (c : Config ω) (fd : Int) (b : Bool) :
    (c.setMine fd b).own = Function.update c.own (.user fd) (if b then some fd else none) := by
  funext p
  by_cases hp : p = .user fd
  · rw [hp, Function.update_self]
    simp [own, setMine]
  · rw [Function.update_of_ne hp]
    cases p with
    | object v => rfl
    | user f =>
      have hf : f ≠ fd := fun hf => hp (by rw [hf])
      simp [own, setMine, hf]

omit [DecidableEq ω] in
@[simp] theorem owns_none : owns none = none := rfl

omit [DecidableEq ω] in
@[simp] theorem owns_invalid : owns (some (-1)) = none := rfl

omit [DecidableEq ω] in
theorem owns_eq_some {x : Option Int} {fd : Int} : owns x = some fd ↔ x = some fd ∧ fd ≠ -1 := by
  simp [owns, Option.filter_eq_some_iff]

end Config

omit [DecidableEq ω] in
theorem init_inv (h : Init c) : Inv c := by
  obtain ⟨hfd, hmine, hnonneg, hcloses⟩ := h
  refine ⟨⟨fun {p q fd} hp hq => ?_, fun fd => ⟨fun hfd => ⟨.user fd, ?_⟩, fun hp => ?_⟩⟩, hnonneg,
    by simp [hcloses]⟩
  · cases p <;> cases q <;> simp_all [Config.own, Config.owns]
  · simp [Config.own, hmine, hfd]
  · obtain ⟨p, hp⟩ := hp
    cases p with
    | object w => simp [Config.own, Config.owns, hfd] at hp
    | user f =>
      simp only [Config.own, hmine, Option.ite_none_right_eq_some, Option.some.injEq] at hp
      exact hp.2 ▸ hp.1

omit [DecidableEq ω] in
theorem Inv.mine_iff (h : Inv c) (fd : Int) : c.given fd = true → c.own (.user fd) = Config.owns (some fd) := by
  intro hg
  have hne : c.mine fd = true → fd ≠ -1 := fun hm he => by
    have hopen := h.exclusive.taken_of (h := .user fd) (r := fd) (by simp [Config.own, hm])
    have hle := h.nonneg fd hopen
    omega
  cases hm : c.mine fd with
  | true => simp [Config.own, hm, Config.owns_eq_some.mpr ⟨rfl, hne hm⟩]
  | false =>
    obtain rfl : fd = -1 := by simpa [Config.given, hm] using hg
    simp [Config.own, hm]

/-! ## The steps -/

section
variable {d : Config ω} {p q : Party ω} {fd : Int}

/-- An owner closes what it owns. -/
theorem Inv.closes_own (h : Inv c) (ho : c.own p = some fd) (hd : d.own = Function.update c.own p none)
    (hopen : d.isOpen = Function.update c.isOpen fd false) (hcloses : d.closes = c.closes ++ [(fd, c.isOpen fd)]) :
    Inv d := by
  have htaken := h.exclusive.taken_of ho
  refine ⟨?_, fun f hf => ?_, fun x hx => ?_⟩
  · rw [hd]
    refine h.exclusive.drop fun f => ?_
    rw [hopen, ho]
    by_cases hf : f = fd
    · simp [hf]
    · simp [hf, Ne.symm hf]
  · rw [hopen] at hf
    refine h.nonneg f ?_
    by_cases hfd : f = fd
    · simp [hfd] at hf
    · simpa [hfd] using hf
  · rw [hcloses] at hx
    rcases List.mem_append.mp hx with hx | hx
    · exact h.closes x hx
    · rw [List.mem_singleton.mp hx]
      exact htaken

/-- It changes hands. -/
theorem Inv.hands_over (h : Inv c) (hne : p ≠ q) (hfree : c.own p = none)
    (hd : d.own = Function.update (Function.update c.own q none) p (c.own q))
    (hopen : d.isOpen = c.isOpen) (hcloses : d.closes = c.closes) : Inv d := by
  refine ⟨?_, by rw [hopen]; exact h.nonneg, by rw [hcloses]; exact h.closes⟩
  rw [hd, hopen, Function.update_comm hne.symm]
  exact h.exclusive.transfer hne hfree

/-- The system returns a new one. -/
theorem Inv.allocates (h : Inv c) (hfree : c.own p = none) (hnew : 0 ≤ fd ∧ c.isOpen fd = false)
    (hd : d.own = Function.update c.own p (some fd)) (hopen : d.isOpen = Function.update c.isOpen fd true)
    (hcloses : d.closes = c.closes) : Inv d := by
  refine ⟨?_, fun f hf => ?_, by rw [hcloses]; exact h.closes⟩
  · rw [hd]
    refine h.exclusive.acquire hfree (by simp [hnew.2]) fun f => ?_
    rw [hopen]
    by_cases hf : f = fd <;> simp [hf]
  · rw [hopen] at hf
    by_cases hfd : f = fd
    · exact hfd ▸ hnew.1
    · exact h.nonneg f (by simpa [hfd] using hf)

omit [DecidableEq ω] in
theorem Inv.congr (h : Inv c) (hown : d.own = c.own) (hopen : d.isOpen = c.isOpen)
    (hcloses : d.closes = c.closes) : Inv d :=
  ⟨by rw [hown, hopen]; exact h.exclusive, by rw [hopen]; exact h.nonneg, by rw [hcloses]; exact h.closes⟩

end

/-- Afterwards the object owns nothing, and nobody else is concerned. -/
theorem Inv.close (h : Inv c) {fd : Int} (hw : c.fd w = some fd) :
    Inv (c.close w fd) ∧ (c.close w fd).own (.object w) = none ∧ (c.close w fd).mine = c.mine ∧
      ∀ v, v ≠ w → (c.close w fd).fd v = c.fd v := by
  by_cases hfd : fd = -1
  · have hown : c.own (.object w) = none := by simp [Config.own, Config.owns, hw, hfd]
    have hclose : c.close w fd = c := by simp [Config.close, hfd]
    rw [hclose]
    exact ⟨h, hown, rfl, fun _ _ => rfl⟩
  · have hown : c.own (.object w) = some fd := Config.owns_eq_some.mpr ⟨hw, hfd⟩
    have hd : ((c.sysClose fd).setFd w (some (-1))).own = Function.update c.own (.object w) none :=
      Config.own_setFd (c.sysClose fd) w (some (-1))
    simp only [Config.close, ne_eq, hfd, not_false_eq_true, if_true]
    refine ⟨h.closes_own hown hd rfl rfl, ?_, rfl, fun v hv => Function.update_of_ne hv _ _⟩
    rw [hd, Function.update_self]

omit [DecidableEq ω] in
theorem allocate_eq {d : Config ω} {fd : Int} (h : c.allocate fd = .next d) :
    (0 ≤ fd ∧ c.isOpen fd = false) ∧ d = { c with isOpen := Function.update c.isOpen fd true } := by
  simp only [Config.allocate, bind_eq_next, requiring_eq_next, pure_eq, Outcome.next.injEq] at h
  obtain ⟨-, hnew, rfl⟩ := h
  exact ⟨hnew, rfl⟩

omit [DecidableEq ω] in
theorem Inv.user_free (h : Inv c) {fd : Int} (hfd : c.isOpen fd = false) : c.own (.user fd) = none := by
  cases hm : c.mine fd with
  | false => simp [Config.own, hm]
  | true =>
    have hopen := h.exclusive.taken_of (h := .user fd) (r := fd) (by simp [Config.own, hm])
    rw [hfd] at hopen
    cases hopen

theorem next_inv (h : Inv c) (a : Act ω) : (next c a).Yields Inv := by
  cases a with
  | «open» fd =>
    simp only [next, yields_bind]
    intro m hm
    obtain ⟨hnew, rfl⟩ := allocate_eq hm
    refine yields_next.mpr (h.allocates (h.user_free hnew.2) hnew ?_ rfl rfl)
    exact Config.own_setMine _ fd true
  | closeMine fd =>
    simp only [next, yields_bind, yields_requiring]
    intro hm
    refine yields_next.mpr (h.closes_own (p := .user fd) (by simp [Config.own, hm]) ?_ rfl rfl)
    exact Config.own_setMine (c.sysClose fd) fd false
  | construct w fd =>
    simp only [next, yields_bind, yields_requiring]
    intro hg
    obtain ⟨hw, hg⟩ := hg
    refine yields_next.mpr (h.hands_over (p := .object w) (q := .user fd) (by simp)
      (by simp [Config.own, Config.owns, hw]) ?_ rfl rfl)
    rw [Config.own_setFd, Config.own_setMine, h.mine_iff fd hg]
    simp
  | moveConstruct w move =>
    simp only [next]
    cases hw : c.fd w with
    | some old => exact yields_blocked
    | none =>
      cases hm : c.fd move with
      | none => exact yields_blocked
      | some fd =>
        have hne : w ≠ move := fun he => by simp [he, hm] at hw
        refine yields_next.mpr (h.hands_over (p := .object w) (q := .object move) (by simp [hne])
          (by simp [Config.own, Config.owns, hw]) ?_ rfl rfl)
        have hown : c.own (.object move) = Config.owns (some fd) := by rw [Config.own, hm]
        rw [Config.own_setFd, Config.own_setFd, hown, Config.owns_invalid]
  | moveAssign w move =>
    simp only [next]
    cases hw : c.fd w with
    | none => exact yields_blocked
    | some old =>
      cases hm : c.fd move with
      | none => exact yields_blocked
      | some fd =>
        dsimp only
        split
        next hne =>
          obtain ⟨hclosed, hfree, -, hothers⟩ := h.close hw
          have hm' : (c.close w old).own (.object move) = Config.owns (some fd) := by
            rw [Config.own, hothers move hne, hm]
          refine yields_next.mpr (hclosed.hands_over (p := .object w) (q := .object move)
            (by simp [Ne.symm hne]) hfree ?_ rfl rfl)
          rw [Config.own_setFd, Config.own_setFd, hm', Config.owns_invalid]
        next => exact yields_next.mpr h
  | duplicate w r answer =>
    simp only [next]
    cases hw : c.fd w with
    | none => exact yields_blocked
    | some old =>
      cases answer with
      | none => exact yields_next.mpr h
      | some fd =>
        simp only [yields_bind, yields_requiring]
        intro hr m hm
        obtain ⟨hnew, rfl⟩ := allocate_eq hm
        refine yields_next.mpr (h.allocates (p := .object r) (by simp [Config.own, Config.owns, hr.2]) hnew ?_
          rfl rfl)
        have hne : fd ≠ -1 := by omega
        refine (Config.own_setFd _ r (some fd)).trans ?_
        rw [Config.owns_eq_some.mpr ⟨rfl, hne⟩]
        rfl
  | reset w fd =>
    simp only [next]
    cases hw : c.fd w with
    | none => exact yields_blocked
    | some old =>
      simp only [yields_bind, yields_requiring]
      intro hg
      split
      next hne =>
        have hg : c.given fd = true := hg.resolve_right fun he => hne he.symm
        obtain ⟨hclosed, hfree, hmine, -⟩ := h.close hw
        have hg' : (c.close w old).given fd = true := by rwa [Config.given, hmine]
        refine yields_next.mpr (hclosed.hands_over (p := .object w) (q := .user fd) (by simp) hfree ?_ rfl rfl)
        rw [Config.own_setFd, Config.own_setMine, hclosed.mine_iff fd hg']
        simp
      next => exact yields_next.mpr h
  | release w =>
    simp only [next]
    cases hw : c.fd w with
    | none => exact yields_blocked
    | some fd =>
      have hown : c.own (.object w) = Config.owns (some fd) := by rw [Config.own, hw]
      have hfree : c.own (.user fd) = none := by
        cases hm : c.mine fd with
        | false => simp [Config.own, hm]
        | true =>
          have hg : c.given fd = true := by simp [Config.given, hm]
          have huser : c.own (.user fd) = some fd := by simp [Config.own, hm]
          have hobject : c.own (.object w) = some fd := by rw [hown, ← h.mine_iff fd hg, huser]
          cases h.exclusive.unique huser hobject
      refine yields_next.mpr (h.hands_over (p := .user fd) (q := .object w) (by simp) hfree ?_ rfl rfl)
      rw [Config.own_setMine, Config.own_setFd, hown, Config.owns_invalid]
      by_cases hfd : fd = -1
      · simp [hfd]
      · simp [hfd, Config.owns_eq_some.mpr ⟨rfl, hfd⟩]
  | close w =>
    simp only [next]
    cases hw : c.fd w with
    | none => exact yields_blocked
    | some fd => exact yields_next.mpr (h.close hw).1
  | destroy w =>
    simp only [next]
    cases hw : c.fd w with
    | none => exact yields_blocked
    | some fd =>
      obtain ⟨hclosed, hfree, -, -⟩ := h.close hw
      refine yields_next.mpr (hclosed.congr ?_ rfl rfl)
      rw [Config.own_setFd]
      exact Function.update_eq_self_iff.mpr hfree.symm

/-- **Every file descriptor has one owner, and is closed once.** However objects
are made from what the users have, moved onto each other and onto themselves,
reset, released, duplicated and destroyed: what is open is owned by exactly one
object or user; whatever was closed was open then; `valid()` says that an object
owns one, and its `m_fd` is never a file descriptor that was closed; and when
there are no objects left and the users have none, nothing is left open. -/
theorem owned_once (h : Runs.Reachable next Init c) :
    (Exclusive c.own fun fd => c.isOpen fd = true) ∧ (∀ p ∈ c.closes, p.2 = true) ∧
    (∀ w fd, c.fd w = some fd → if c.valid w then c.own (.object w) = some fd ∧ c.isOpen fd = true else fd = -1) ∧
    ((∀ w, c.fd w = none) → (∀ fd, c.mine fd = false) → ∀ fd, c.isOpen fd = false) := by
  have hv : Inv c := h.yields (fun _ => init_inv) fun _ a hv => next_inv hv a
  refine ⟨hv.exclusive, hv.closes, fun w fd hw => ?_, fun hnone hmine fd => ?_⟩
  · have hown : fd ≠ -1 → c.own (.object w) = some fd ∧ c.isOpen fd = true := fun hne => by
      have ho : c.own (.object w) = some fd := Config.owns_eq_some.mpr ⟨hw, hne⟩
      exact ⟨ho, hv.exclusive.taken_of ho⟩
    have hvalid : c.valid w = decide (0 ≤ fd) := by simp [Config.valid, hw]
    rw [hvalid]
    split
    next hle =>
      have hle : 0 ≤ fd := of_decide_eq_true hle
      exact hown (by omega)
    next hlt =>
      by_contra hne
      exact hlt (decide_eq_true (hv.nonneg fd (hown hne).2))
  · by_contra hopen
    obtain ⟨p, hp⟩ := (hv.exclusive.owned_iff fd).mp (by simpa using hopen)
    cases p with
    | object w => simp [Config.own, hnone] at hp
    | user f => simp [Config.own, hmine] at hp

/-- One object is moved onto itself, and reset to what it has. -/
theorem owned_once_self : ∃ c : Config Bool,
    Runs.run next ⟨fun _ => none, fun _ => false, fun _ => false, []⟩ [.open 3, .construct true 3,
      .moveAssign true true, .reset true 3, .duplicate true false (some 4), .moveAssign true false] = .next c ∧
    c.closes = [(3, true)] ∧ c.own (.object true) = some 4 ∧ ∀ p ∈ c.closes, p.2 = true := by
  obtain ⟨c, hc, hcloses, hown⟩ : ∃ c : Config Bool,
      Runs.run next ⟨fun _ => none, fun _ => false, fun _ => false, []⟩ [.open 3, .construct true 3,
        .moveAssign true true, .reset true 3, .duplicate true false (some 4), .moveAssign true false] = .next c ∧
      c.closes = [(3, true)] ∧ c.own (.object true) = some 4 := ⟨_, rfl, rfl, rfl⟩
  have hinit : Init (⟨fun _ => none, fun _ => false, fun _ => false, []⟩ : Config Bool) :=
    ⟨fun _ => rfl, rfl, by simp, rfl⟩
  exact ⟨c, hc, hcloses, hown, (owned_once (.run (.init hinit) hc)).2.1⟩

end FileDescriptor
