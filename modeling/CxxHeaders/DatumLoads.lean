/-
When `loadFileToContainer` loads a file, or reports why it cannot.

As in the event loop, an error of `read` is taken for a size before it is looked
at, and fails an assertion, be it only that the call was interrupted
(`loads_iff`).
-/
import CxxHeaders.Datum

open Outcome Throwing

namespace Datum

variable {sys : System} {s : State} {reads : Nat → Read} {closed : List Int} {pre rest data : List value_type}
  {fuel left buf size k : Nat} {e : Errno} {E : Thrown → State → Prop} {Q : Unit → State → Prop}

/-! ## A call -/

theorem ends_readTo {Q : Int → State → Prop} (call : Read) (buf count : Nat) :
    Ends (readTo call buf count) s Q E ↔
      buf + (call.written count).length ≤ s.contents.length ∧
        Q (call.result count) (s.write buf (call.written count)) := by
  unfold readTo requiring
  by_cases h : buf + (call.written count).length ≤ s.contents.length <;> simp [h]

theorem min_umax (hlt : left < 2 ^ 63) : min umax left = left := by
  unfold umax
  omega

theorem not_ends_error (h : reads 0 = .error e) (hlt : left < 2 ^ 63) :
    ¬Ends (readLoop fuel reads left buf) s Q E := by
  cases fuel with
  | zero => simp [readLoop]
  | succ fuel =>
    have hnot := not_toSize_neg_one_le hlt
    unfold readLoop
    simp only [ends_bind, ends_readTo, ends_asserting, min_umax hlt, h, Read.result, hnot, false_and,
      and_false, not_false_eq_true]

theorem write_nil (s : State) (buf : Nat) : s.write buf [] = s := by simp [State.write]

theorem ends_eof (h : reads 0 = .eof) (hlt : left < 2 ^ 63) (hbuf : buf ≤ s.contents.length) :
    Ends (readLoop (fuel + 1) reads left buf) s Q E ↔ E .fileSizeChangedException s := by
  unfold readLoop
  simp [ends_readTo, min_umax hlt, h, Read.eof, Read.result, Read.written, toSize, hbuf, write_nil]

theorem write_append :
    State.write ⟨pre ++ rest, closed⟩ pre.length data = ⟨pre ++ data ++ rest.drop data.length, closed⟩ := by
  simp [State.write, List.drop_append]

/-- The container when `data` was read, as far as there is room. -/
theorem ends_bytes (h : reads 0 = .bytes data) (hne : data ≠ []) (hpos : rest ≠ [])
    (hlt : rest.length < 2 ^ 63) :
    Ends (readLoop (fuel + 1) reads rest.length pre.length) ⟨pre ++ rest, closed⟩ Q E ↔
      if rest.length ≤ data.length then Q () ⟨pre ++ data.take rest.length, closed⟩
      else Ends (readLoop fuel (laterCalls reads) (rest.drop data.length).length (pre ++ data).length)
        ⟨pre ++ data ++ rest.drop data.length, closed⟩ Q E := by
  have hlen : 0 < data.length := List.length_pos_iff.2 hne
  have hleft : 0 < rest.length := List.length_pos_iff.2 hpos
  obtain ⟨m, hm⟩ : ∃ m, (data.take rest.length).length = m := ⟨_, rfl⟩
  have hmin : m = min rest.length data.length := hm.symm.trans List.length_take
  have hsize : toSize (m : Int) = m := toSize_natCast (by omega)
  have hzero : ¬(m : Int) = 0 := by omega
  have hneg : ¬(m : Int) < 0 := by omega
  have hroom : pre.length + m ≤ (pre ++ rest).length ∧ m ≤ rest.length := by
    rw [List.length_append]
    omega
  rw [readLoop]
  simp only [ends_bind, ends_readTo, ends_asserting, min_umax hlt, h, Read.result, Read.written, hm, hsize,
    if_neg hzero, if_neg hneg, hroom, true_and, write_append]
  rcases Nat.lt_or_ge data.length rest.length with hlt | hge
  · have hall : data.take rest.length = data := List.take_of_length_le (Nat.le_of_lt hlt)
    have hmore : ¬rest.length - m = 0 := by omega
    obtain rfl : m = data.length := by omega
    rw [if_neg hmore, if_neg (Nat.not_le.2 hlt), hall, List.length_drop, List.length_append]
  · have hdone : rest.length - m = 0 := by omega
    rw [if_pos hdone, if_pos hge, ends_pure, List.drop_of_length_le (by omega), List.append_nil]

/-! ## The loop -/

theorem needed_zero (hpos : 0 < size) : Needed size reads 0 :=
  ⟨hpos, fun _ hj => absurd hj (Nat.not_lt_zero _)⟩

theorem delivered_succ (h : reads 0 = .bytes data) :
    delivered reads (k + 1) = data ++ delivered (laterCalls reads) k := by
  simp only [delivered, h, Read.data]

theorem needed_succ (h : reads 0 = .bytes data) (hne : data ≠ []) :
    Needed size reads (k + 1) ↔ Needed (size - data.length) (laterCalls reads) k := by
  have hfirst : (reads 0).GoesOn := by
    rw [h]
    exact hne
  unfold Needed
  rw [delivered_succ h, List.length_append, Nat.lt_sub_iff_add_lt', Nat.forall_lt_succ_left]
  exact and_congr_right fun _ => and_iff_right hfirst

/-- The loop needs no call that is an error. By induction on the calls. -/
theorem not_error_of_ends (pre : List value_type) (hpos : rest ≠ []) (hlt : rest.length < 2 ^ 63)
    (h : Ends (readLoop fuel reads rest.length pre.length) ⟨pre ++ rest, closed⟩ Q E)
    (hk : Needed rest.length reads k) : reads k ≠ .error e := by
  induction k generalizing fuel reads pre rest with
  | zero => exact fun he => not_ends_error he hlt h
  | succ k ih =>
    cases hr : reads 0 with
    | error e' => exact absurd h (not_ends_error hr hlt)
    | bytes data =>
      have hne : data ≠ [] := by
        have hg := hk.2 0 (Nat.succ_pos k)
        rw [hr] at hg
        exact hg
      cases fuel with
      | zero => exact absurd h (by simp [readLoop])
      | succ fuel =>
        rw [needed_succ hr hne] at hk
        have hmore : ¬rest.length ≤ data.length := by
          have := hk.1
          omega
        rw [ends_bytes hr hne hpos hlt, if_neg hmore] at h
        have hdrop : (rest.drop data.length).length = rest.length - data.length := List.length_drop
        rw [← hdrop] at hk
        exact ih _ (List.length_pos_iff.1 (by omega)) (by omega) h hk

/-- The loop, where no call that it needs is an error. By induction on what is
left to be read. -/
theorem readLoop_ends (pre : List value_type) (closed : List Int) (hpos : rest ≠ []) (hlt : rest.length < 2 ^ 63)
    (herr : ∀ k, Needed rest.length reads k → ∀ e, reads k ≠ .error e) :
    ∃ fuel, Ends (readLoop fuel reads rest.length pre.length) ⟨pre ++ rest, closed⟩
      (fun _ t => ∃ k, (∀ j < k, (reads j).GoesOn) ∧ rest.length ≤ (delivered reads k).length ∧
        t = ⟨pre ++ (delivered reads k).take rest.length, closed⟩)
      (fun e t => e = .fileSizeChangedException ∧ t.closed = closed ∧
        ∃ k, Needed rest.length reads k ∧ reads k = .eof) := by
  induction hn : rest.length using Nat.strongRecOn generalizing reads pre rest with
  | ind n ih =>
    subst hn
    have hleft : 0 < rest.length := List.length_pos_iff.2 hpos
    cases hr : reads 0 with
    | error e => exact absurd hr (herr 0 (needed_zero hleft) e)
    | bytes data =>
      rcases eq_or_ne data [] with rfl | hne
      · have hroom : pre.length ≤ (pre ++ rest).length := by simp
        exact ⟨1, (ends_eof hr hlt hroom).2 ⟨rfl, rfl, 0, needed_zero hleft, hr⟩⟩
      have hdata : 0 < data.length := List.length_pos_iff.2 hne
      have hfirst : (reads 0).GoesOn := by
        rw [hr]
        exact hne
      rcases Nat.lt_or_ge data.length rest.length with hmore | hdone
      · have hdrop : (rest.drop data.length).length = rest.length - data.length := List.length_drop
        have hlater : ∀ k, Needed (rest.drop data.length).length (laterCalls reads) k → ∀ e,
            laterCalls reads k ≠ .error e := by
          rw [hdrop]
          exact fun k hk => herr (k + 1) ((needed_succ hr hne).2 hk)
        obtain ⟨fuel, h⟩ := ih _ (by omega) (pre ++ data)
          (List.length_pos_iff.1 (by omega)) (by omega) hlater rfl
        refine ⟨fuel + 1, (ends_bytes hr hne hpos hlt).2 ?_⟩
        rw [if_neg (Nat.not_le.2 hmore)]
        refine h.mono ?_ ?_
        · rintro - t ⟨k, hgoes, hlen, rfl⟩
          refine ⟨k + 1, Nat.forall_lt_succ_left.2 ⟨hfirst, hgoes⟩, ?_, ?_⟩
          · rw [delivered_succ hr, List.length_append]
            omega
          · rw [delivered_succ hr, List.take_append, List.take_of_length_le (Nat.le_of_lt hmore), hdrop,
              List.append_assoc]
        · rintro e t ⟨he, hclosed, k, hk, heof⟩
          rw [hdrop] at hk
          exact ⟨he, hclosed, k + 1, (needed_succ hr hne).2 hk, heof⟩
      · refine ⟨1, (ends_bytes hr hne hpos hlt).2 ?_⟩
        rw [if_pos hdone]
        have hall : delivered reads 1 = data := by rw [delivered_succ hr, delivered, List.append_nil]
        refine ⟨1, Nat.forall_lt_succ_left.2 ⟨hfirst, by simp⟩, ?_, ?_⟩ <;> rw [hall]
        exact hdone

/-! ## The file -/

theorem toSize_st_size (statBuf : Stat) : toSize statBuf.st_size = statBuf.st_size.toNat := by
  have hnonneg := statBuf.nonneg
  have hlt := statBuf.lt
  unfold toSize
  omega

theorem ends_fileSize {Q : Nat → State → Prop} : Ends (fileSize sys) s Q E ↔
    match sys.fstat with
    | .error e => E (.errnoException e) s
    | .ok statBuf =>
      if statBuf.Regular then Q statBuf.st_size.toNat s else E .fileTypeNotSupportedException s := by
  unfold fileSize
  cases sys.fstat with
  | error e => exact ends_throw _
  | ok statBuf => by_cases h : statBuf.Regular <;> simp [h, statBuf.nonneg, toSize_st_size]

theorem ends_resize {memory : Nat} : Ends (resize memory size) ⟨[], closed⟩ Q E ↔
    if memory < size then E .badAlloc ⟨[], closed⟩ else Q () ⟨List.replicate size 0, closed⟩ := by
  unfold resize
  by_cases h : memory < size <;> simp [h]

theorem System.inFd_ok {fd : Nat} (h : sys.openFile = .ok fd) : sys.inFd = fd := by simp only [System.inFd, h]

theorem System.inFd_error (h : sys.openFile = .error e) : sys.inFd = -1 := by simp only [System.inFd, h]

namespace System

/-- The container is returned, and the file was closed. -/
def Returned (sys : System) (contents : List value_type) (s : State) : Prop :=
  sys.Loaded contents ∧ s.closed = sys.opened

/-- A `LoadException` is thrown over the cause, and the file was closed. -/
def Rethrown (sys : System) (filename : String) (e : Thrown) (s : State) : Prop :=
  (∃ cause, e = .loadException (loadMessage filename) cause ∧ sys.Cause cause) ∧ s.closed = sys.opened

theorem Rethrown.what {filename : String} {t : Thrown} (h : sys.Rethrown filename t s) :
    t.what = some (loadMessage filename) := by
  obtain ⟨⟨cause, rfl, -⟩, -⟩ := h
  rfl

end System

/-- The `catch` block. -/
theorem ends_loadFileToContainer (filename : String) :
    Ends (loadFileToContainer sys fuel filename) s sys.Returned (sys.Rethrown filename) ↔
      Ends (loadFile sys fuel) s (fun _ t => sys.Returned t.contents t)
        (fun cause t => sys.Cause cause ∧ t.closed = []) := by
  unfold loadFileToContainer
  cases h : sys.openFile with
  | error e => simp [System.inFd_error h, System.Rethrown, System.opened, h]
  | ok fd => simp [System.inFd_ok h, System.Rethrown, System.opened, h, close]

theorem not_reads_of_not_regular {statBuf : Stat} (h : sys.fstat = .ok statBuf) (hr : ¬statBuf.Regular) :
    ¬sys.Reads size := by
  rintro ⟨b, ⟨-, hb⟩, hreg, -⟩
  rw [h, Except.ok.injEq] at hb
  exact hr (hb ▸ hreg)

theorem reads_regular_iff {fd : Nat} {statBuf : Stat} (ho : sys.openFile = .ok fd) (h : sys.fstat = .ok statBuf)
    (hr : statBuf.Regular) : sys.Reads size ↔ size ≤ sys.memory ∧ statBuf.st_size.toNat = size := by
  have hnonneg := statBuf.nonneg
  constructor
  · rintro ⟨b, ⟨-, hb⟩, -, hmem, hsize⟩
    rw [h, Except.ok.injEq] at hb
    rw [← hb] at hsize
    omega
  · rintro ⟨hmem, hsize⟩
    exact ⟨statBuf, ⟨⟨fd, ho⟩, h⟩, hr, hmem, by omega⟩

/-- A regular file that was opened. -/
theorem ends_loadFile {fd n : Nat} {statBuf : Stat} (ho : sys.openFile = .ok fd) (hs : sys.fstat = .ok statBuf)
    (hr : statBuf.Regular) (hn : statBuf.st_size.toNat = n) : Ends (loadFile sys fuel) .init Q E ↔
      if n = 0 then Q () ⟨[], [(fd : Int)]⟩
      else if sys.memory < n then E .badAlloc .init
      else Ends (readLoop fuel sys.reads n 0) ⟨List.replicate n 0, []⟩
        (fun _ t => Q () { t with closed := t.closed ++ [(fd : Int)] }) E := by
  have hopen : ¬(fd : Int) < 0 := by omega
  unfold loadFile
  simp only [System.inFd_ok ho, if_neg hopen, ends_bind, ends_fileSize, hs, if_pos hr, hn]
  rcases Nat.eq_zero_or_pos n with rfl | hpos
  · rfl
  · simp only [if_pos hpos, if_neg (Nat.ne_of_gt hpos), ends_bind, State.init, ends_resize, close, ends_modify]

/-- No call of `read` that the reading needs is an error. -/
def System.Fine (sys : System) : Prop :=
  ∀ size, sys.Reads size → ∀ k, Needed size sys.reads k → ∀ e, sys.reads k ≠ .error e

/-- Where the file is not read. -/
theorem fine_of_not_reads (h : ∀ size, ¬sys.Reads size) : sys.Fine := fun size hs => absurd hs (h size)

/-- Where it is. -/
theorem fine_iff (hs : sys.Reads size) :
    sys.Fine ↔ ∀ k, Needed size sys.reads k → ∀ e, sys.reads k ≠ .error e := by
  refine ⟨fun h => h size hs, fun h n hn => ?_⟩
  obtain ⟨b, ⟨-, hb⟩, -, -, hsize⟩ := hs
  obtain ⟨b', ⟨-, hb'⟩, -, -, hn⟩ := hn
  have hsame : b = b' := Except.ok.inj (hb.symm.trans hb')
  rw [hsame, hn, Int.ofNat_inj] at hsize
  exact hsize ▸ h

theorem opened_ok {fd : Nat} (ho : sys.openFile = .ok fd) : sys.opened = [(fd : Int)] := by
  simp only [System.opened, ho]

theorem loads_regular {fd n : Nat} {statBuf : Stat} (ho : sys.openFile = .ok fd) (hs : sys.fstat = .ok statBuf)
    (hr : statBuf.Regular) (hn : statBuf.st_size.toNat = n) :
    (∃ fuel, Ends (loadFile sys fuel) .init (fun _ t => sys.Returned t.contents t)
      (fun cause t => sys.Cause cause ∧ t.closed = [])) ↔ sys.Fine := by
  simp only [ends_loadFile ho hs hr hn]
  have hsize : n < 2 ^ 63 := by
    have hlt := statBuf.lt
    omega
  rcases Nat.eq_zero_or_pos n with rfl | hpos
  · have hreads : sys.Reads 0 := (reads_regular_iff ho hs hr).2 ⟨Nat.zero_le _, hn⟩
    have hloaded : sys.Loaded [] := ⟨0, 0, hreads, by simp, by simp, rfl⟩
    have hfine : sys.Fine := (fine_iff hreads).2 fun k hk => absurd hk.1 (Nat.not_lt_zero _)
    simp [System.Returned, opened_ok ho, hloaded, hfine]
  simp only [if_neg (Nat.ne_of_gt hpos)]
  rcases Nat.lt_or_ge sys.memory n with hlt | hmem
  · have hcause : sys.Cause .badAlloc := .memory ⟨⟨fd, ho⟩, hs⟩ hr (hn ▸ hlt)
    have hno : ∀ size, ¬sys.Reads size := by
      intro size h
      rw [reads_regular_iff ho hs hr] at h
      omega
    simp [hlt, hcause, State.init, fine_of_not_reads hno]
  have hreads : sys.Reads n := (reads_regular_iff ho hs hr).2 ⟨hmem, hn⟩
  rw [fine_iff hreads]
  simp only [if_neg (Nat.not_lt.2 hmem)]
  -- the container, before anything was read
  obtain ⟨rest, hrest⟩ : ∃ rest, List.replicate n (0 : value_type) = rest := ⟨_, rfl⟩
  obtain rfl : rest.length = n := by rw [← hrest, List.length_replicate]
  rw [hrest]
  constructor
  · rintro ⟨fuel, h⟩ k hk e
    exact not_error_of_ends [] (List.length_pos_iff.1 hpos) hsize h hk
  · intro h
    obtain ⟨fuel, h⟩ := readLoop_ends [] [] (List.length_pos_iff.1 hpos) hsize h
    refine ⟨fuel, h.mono ?_ ?_⟩
    · rintro - t ⟨k, hgoes, hlen, rfl⟩
      exact ⟨⟨_, k, hreads, hgoes, hlen, rfl⟩, (opened_ok ho).symm⟩
    · rintro cause t ⟨rfl, hclosed, k, hk, heof⟩
      exact ⟨.fileSize hreads hk heof, hclosed⟩

/-- **What loading a file comes to.** It returns the first bytes that are
delivered, as many as were reported, or it throws a `LoadException` over the cause,
and the descriptor is closed once; no assertion fails, and nothing is written
outside the container; if and only if no call of `read` that it needs is an error. -/
theorem loads_iff (sys : System) (filename : String) :
    (∃ fuel, Ends (loadFileToContainer sys fuel filename) .init sys.Returned (sys.Rethrown filename)) ↔
      sys.Fine := by
  simp only [ends_loadFileToContainer]
  cases ho : sys.openFile with
  | error e =>
    have hno : ∀ size, ¬sys.Reads size := by
      rintro size ⟨b, ⟨⟨fd, hfd⟩, -⟩, -⟩
      simp [ho] at hfd
    refine iff_of_true ⟨0, ?_⟩ (fine_of_not_reads hno)
    have hcause : sys.Cause (.errnoException e) := .openFile ho
    unfold loadFile
    simp [System.inFd_error ho, System.openErrno, ho, hcause, State.init]
  | ok fd =>
    have hopen : ¬(fd : Int) < 0 := by omega
    cases hs : sys.fstat with
    | error e =>
      have hno : ∀ size, ¬sys.Reads size := by
        rintro size ⟨b, ⟨-, hb⟩, -⟩
        simp [hs] at hb
      refine iff_of_true ⟨0, ?_⟩ (fine_of_not_reads hno)
      have hcause : sys.Cause (.errnoException e) := .fstat ho hs
      unfold loadFile
      simp [System.inFd_ok ho, hopen, ends_fileSize, hs, hcause, State.init]
    | ok statBuf =>
      by_cases hr : statBuf.Regular
      · obtain ⟨n, hn⟩ : ∃ n, statBuf.st_size.toNat = n := ⟨_, rfl⟩
        exact loads_regular ho hs hr hn
      · refine iff_of_true ⟨0, ?_⟩ (fine_of_not_reads fun size => not_reads_of_not_regular hs hr)
        have hcause : sys.Cause .fileTypeNotSupportedException := .fileType ⟨⟨fd, ho⟩, hs⟩ hr
        unfold loadFile
        simp [System.inFd_ok ho, hopen, ends_fileSize, hs, hr, hcause, State.init]

/-- A file of one byte; the first call was interrupted. -/
def interrupted : System where
  openFile := .ok 3
  fstat := .ok ⟨S_IFREG, 1, by decide, by decide⟩
  memory := 1
  reads
    | 0 => .error .eintr
    | 1 => .bytes [65]
    | _ + 2 => .eof

/-- Then the assertion fails on it. -/
theorem interrupted_load_fails :
    (∀ fuel, (loadFileToContainer interrupted (fuel + 1) "a").run.run .init = .failed) ∧
      ¬∃ fuel, Ends (loadFileToContainer interrupted fuel "a") .init interrupted.Returned
        (interrupted.Rethrown "a") := by
  have hfailed : ∀ fuel, (loadFileToContainer interrupted (fuel + 1) "a").run.run .init = .failed :=
    fun _ => rfl
  refine ⟨hfailed, ?_⟩
  rintro ⟨fuel, h⟩
  cases fuel with
  | zero => exact h
  | succ fuel =>
    unfold Ends at h
    rw [hfailed] at h
    exact h

end Datum
