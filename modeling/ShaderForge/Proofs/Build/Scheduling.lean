import Mathlib.Algebra.BigOperators.Fin
import ShaderForge.Build.Run
import ShaderForge.Proofs.Pipeline.Stages

/-!
# ShaderForge.Proofs.Build.Scheduling

The jobs of a batch on several workers. A feeder hands over one job after another, each to a worker that is free;
once the work is cancelled it may stop, and then it writes the outcomes of the jobs that are left itself.

* `Pool`, `Pool.Step`  — the feeder, the workers and the results, and what they do one at a time.
* `Pool.Sound`         — the invariant: each job waits, runs, is finished or is left out.
* `Sound.step`, `Reachable.sound` — a step keeps it, so every schedule does.
* `Sound.final_or_step` — only a pool at its end has no step.
* `exists_schedule`    — running the jobs one after another is one of the schedules.
* `schedule_complete`  — what every schedule comes to.
-/

namespace ShaderForge

/-- Where the feeder stands. -/
inductive Feeder where
  | feeding (next : Nat)
  | dropping (next : Nat)
  | closed
  deriving DecidableEq, Repr

/-- What a worker does. -/
inductive Worker (jobs : Nat) where
  | idle
  | busy (job : Fin jobs)
  | done
  deriving DecidableEq, Repr

def Feeder.rest : Feeder → Nat
  | .closed => 0
  | .dropping _ => 1
  | .feeding _ => 2

def Worker.rest {n : Nat} : Worker n → Nat
  | .done => 0
  | .idle => 1
  | .busy _ => 2

structure Pool (jobs : List Job) (workers : Nat) where
  cancelled : Bool := false
  feeder : Feeder := .feeding 0
  worker : Fin workers → Worker jobs.length := fun _ => .idle
  /-- The jobs handed to workers, in order. -/
  started : List (Fin jobs.length) := []
  /-- What was written to the place of each job, in order. -/
  slot : Fin jobs.length → List JobResult := fun _ => []

variable {jobs : List Job} {workers : Nat}

namespace Pool

variable {p : Pool jobs workers} {k : Fin jobs.length} {v : Fin workers} {rs : List JobResult}

/-- One step of the feeder or of a worker. A job is handed over when the feeder and a worker are both ready for it;
the outcome of a job that is run may be any. -/
inductive Step : Pool jobs workers → Pool jobs workers → Prop
  | send {p : Pool jobs workers} {k : Fin jobs.length} {v : Fin workers} (hfeed : p.feeder = .feeding k)
      (hidle : p.worker v = .idle) :
      Step p { p with
        feeder := .feeding (k + 1), worker := Function.update p.worker v (.busy k), started := p.started ++ [k] }
  | stop {p : Pool jobs workers} {k : Fin jobs.length} (hfeed : p.feeder = .feeding k) (hcancel : p.cancelled = true) :
      Step p { p with feeder := .dropping k }
  | drop {p : Pool jobs workers} {k : Fin jobs.length} (hdrop : p.feeder = .dropping k) :
      Step p { p with
        feeder := .dropping (k + 1)
        slot := Function.update p.slot k (p.slot k ++ [.dropped (jobs.get k)]) }
  | close {p : Pool jobs workers} (hend : p.feeder = .feeding jobs.length ∨ p.feeder = .dropping jobs.length) :
      Step p { p with feeder := .closed }
  | finish {p : Pool jobs workers} {k : Fin jobs.length} {v : Fin workers} (hbusy : p.worker v = .busy k)
      (x : Except CompileError Path) :
      Step p { p with
        worker := Function.update p.worker v .idle
        slot := Function.update p.slot k (p.slot k ++ [.compiled (jobs.get k) x]) }
  | exit {p : Pool jobs workers} {v : Fin workers} (hclosed : p.feeder = .closed) (hidle : p.worker v = .idle) :
      Step p { p with worker := Function.update p.worker v .done }

/-- Reached from the start by steps, with the work cancelled from outside at any time. -/
inductive Reachable : Pool jobs workers → Prop
  | start : Reachable {}
  | step {p q : Pool jobs workers} (h : Reachable p) (hstep : p.Step q) : Reachable q
  | cancel {p : Pool jobs workers} (h : Reachable p) : Reachable { p with cancelled := true }

def Final (p : Pool jobs workers) : Prop := p.feeder = .closed ∧ ∀ v, p.worker v = .done

def results (p : Pool jobs workers) : List JobResult :=
  (List.finRange jobs.length).filterMap fun k => (p.slot k).getLast?

/-! ## The invariant -/

/-- The jobs before this one are handed over or left out. -/
def reach (p : Pool jobs workers) : Nat :=
  match p.feeder with
  | .feeding i => i
  | .dropping i => i
  | .closed => jobs.length

/-- What has happened to a job. -/
inductive Phase (p : Pool jobs workers) (k : Fin jobs.length) : Prop
  | waiting (hreach : p.reach ≤ k) (hslot : p.slot k = []) (hfree : ∀ v, p.worker v ≠ .busy k)
  | running (v : Fin workers) (hstarted : k < p.started.length) (hslot : p.slot k = []) (hbusy : p.worker v = .busy k)
      (honce : ∀ v', p.worker v' = .busy k → v' = v)
  | finished (x : Except CompileError Path) (hstarted : k < p.started.length)
      (hslot : p.slot k = [.compiled (jobs.get k) x]) (hfree : ∀ v, p.worker v ≠ .busy k)
  | left (hstarted : p.started.length ≤ k) (hreach : k < p.reach) (hcancel : p.cancelled = true)
      (hslot : p.slot k = [.dropped (jobs.get k)]) (hfree : ∀ v, p.worker v ≠ .busy k)

structure Sound (p : Pool jobs workers) : Prop where
  /-- Jobs are handed over in order, none of them twice. -/
  started : p.started.map Fin.val = List.range p.started.length
  started_le : p.started.length ≤ p.reach
  reach_le : p.reach ≤ jobs.length
  feeding : ∀ i, p.feeder = .feeding i → p.started.length = i
  dropping : ∀ i, p.feeder = .dropping i → p.cancelled = true
  done : ∀ v, p.worker v = .done → p.feeder = .closed
  phase : ∀ k, p.Phase k

theorem Phase.frame {q : Pool jobs workers} (h : p.Phase k) (hslot : q.slot k = p.slot k)
    (hworker : ∀ v, q.worker v = .busy k ↔ p.worker v = .busy k) (hwaiting : p.reach ≤ k → q.reach ≤ k)
    (hstarted : k < p.started.length → k < q.started.length)
    (hleft : p.started.length ≤ k → k < p.reach → q.started.length ≤ k ∧ k < q.reach)
    (hcancel : p.cancelled = true → q.cancelled = true) : q.Phase k := by
  cases h with
  | waiting hr hs hf => exact .waiting (hwaiting hr) (hslot.trans hs) fun v hv => hf v ((hworker v).1 hv)
  | running v ht hs hb ho =>
    exact .running v (hstarted ht) (hslot.trans hs) ((hworker v).2 hb) fun v' hv' => ho v' ((hworker v').1 hv')
  | finished x ht hs hf => exact .finished x (hstarted ht) (hslot.trans hs) fun v hv => hf v ((hworker v).1 hv)
  | left ht hr hc hs hf =>
    obtain ⟨ht', hr'⟩ := hleft ht hr
    exact .left ht' hr' (hcancel hc) (hslot.trans hs) fun v hv => hf v ((hworker v).1 hv)

theorem update_busy_iff {w : Fin workers → Worker jobs.length} {new : Worker jobs.length} (hold : w v ≠ .busy k)
    (hnew : new ≠ .busy k) (v' : Fin workers) :
    Function.update w v new v' = .busy k ↔ w v' = .busy k := by
  by_cases hv : v' = v
  · subst hv
    simp [hold, hnew]
  · rw [Function.update_of_ne hv]

theorem sound_start : Sound ({} : Pool jobs workers) where
  started := rfl
  started_le := Nat.le_refl 0
  reach_le := Nat.zero_le _
  feeding := by
    rintro i ⟨⟩
    rfl
  dropping := by
    rintro i ⟨⟩
  done := by
    rintro v ⟨⟩
  phase k := .waiting (Nat.zero_le _) rfl fun v => by
    rintro ⟨⟩

theorem Sound.cancel (h : p.Sound) : Sound { p with cancelled := true } :=
  { h with
    dropping := fun _ _ => rfl
    phase := fun k => (h.phase k).frame rfl (fun _ => Iff.rfl) id id (fun ht hr => ⟨ht, hr⟩) fun _ => rfl }

theorem Sound.send (h : p.Sound) (hfeed : p.feeder = .feeding k) (hidle : p.worker v = .idle) :
    Sound { p with
      feeder := .feeding (k + 1), worker := Function.update p.worker v (.busy k), started := p.started ++ [k] } := by
  have hlen : p.started.length = k := h.feeding k hfeed
  have hreach : p.reach = k := by rw [reach, hfeed]
  refine ⟨?_, ?_, k.isLt, ?_, ?_, fun v' hv' => ?_, fun j => ?_⟩
  · rw [List.map_append, h.started, List.length_append, List.length_singleton, List.range_succ, hlen]
    rfl
  · simp [reach, hlen]
  · rintro i ⟨⟩
    simp [hlen]
  · rintro i ⟨⟩
  · -- no worker leaves before the feeder closes
    have hclosed : p.feeder = .closed := by
      by_cases hv : v' = v
      · subst hv
        simp at hv'
      · exact h.done v' (by simpa [Function.update_of_ne hv] using hv')
    rw [hfeed] at hclosed
    cases hclosed
  · by_cases hj : j = k
    · subst hj
      cases h.phase j with
      | waiting hr hs hf =>
        refine .running v (by simp [hlen]) hs (by simp) fun v' hv' => ?_
        by_contra hne
        exact hf v' (by simpa [Function.update_of_ne hne] using hv')
      | running _ ht => omega
      | finished _ ht => omega
      | left ht hr => omega
    · have hne : (j : Nat) ≠ k := fun he => hj (Fin.ext he)
      refine (h.phase j).frame rfl (update_busy_iff (by simp [hidle]) fun he => hj (Worker.busy.inj he).symm)
        ?_ ?_ ?_ id
      · intro hr
        rw [hreach] at hr
        change (k : Nat) + 1 ≤ j
        omega
      · intro ht
        simp only [List.length_append, List.length_singleton]
        omega
      · intro ht hr
        omega

theorem Sound.stop (h : p.Sound) (hfeed : p.feeder = .feeding k) (hcancel : p.cancelled = true) :
    Sound { p with feeder := .dropping k } := by
  have hreach : p.reach = k := by rw [reach, hfeed]
  have hsame : reach { p with feeder := .dropping k } = p.reach := hreach.symm
  refine ⟨h.started, hsame ▸ h.started_le, hsame ▸ h.reach_le, ?_, fun _ _ => hcancel, fun v hv => ?_, fun j => ?_⟩
  · rintro i ⟨⟩
  · have hclosed := h.done v hv
    rw [hfeed] at hclosed
    cases hclosed
  · exact (h.phase j).frame rfl (fun _ => Iff.rfl) (fun hr => hsame ▸ hr) id (fun ht hr => ⟨ht, hsame ▸ hr⟩) id

theorem Sound.drop (h : p.Sound) (hdrop : p.feeder = .dropping k) :
    Sound { p with
      feeder := .dropping (k + 1)
      slot := Function.update p.slot k (p.slot k ++ [.dropped (jobs.get k)]) } := by
  have hreach : p.reach = k := by rw [reach, hdrop]
  have hcancel := h.dropping k hdrop
  have hle := h.started_le
  refine ⟨h.started, ?_, k.isLt, ?_, fun _ _ => hcancel, fun v hv => ?_, fun j => ?_⟩
  · change p.started.length ≤ k + 1
    omega
  · rintro i ⟨⟩
  · have hclosed := h.done v hv
    rw [hdrop] at hclosed
    cases hclosed
  · by_cases hj : j = k
    · subst hj
      cases h.phase j with
      | waiting hr hs hf =>
        refine .left (by change p.started.length ≤ j; omega) (Nat.lt_succ_self _) hcancel ?_ hf
        simp [hs]
      | running _ ht => omega
      | finished _ ht => omega
      | left ht hr => omega
    · have hne : (j : Nat) ≠ k := fun he => hj (Fin.ext he)
      refine (h.phase j).frame (Function.update_of_ne hj _ _) (fun _ => Iff.rfl) ?_ id ?_ id
      · intro hr
        change (k : Nat) + 1 ≤ j
        omega
      · intro ht hr
        refine ⟨ht, ?_⟩
        change (j : Nat) < k + 1
        omega

theorem Sound.close (h : p.Sound) (hend : p.feeder = .feeding jobs.length ∨ p.feeder = .dropping jobs.length) :
    Sound { p with feeder := .closed } := by
  have hreach : p.reach = jobs.length := by
    rcases hend with hend | hend <;> rw [reach, hend]
  have hsame : reach { p with feeder := .closed } = p.reach := hreach.symm
  refine ⟨h.started, hsame ▸ h.started_le, hsame ▸ h.reach_le, ?_, ?_, fun _ _ => rfl, fun j => ?_⟩
  · rintro i ⟨⟩
  · rintro i ⟨⟩
  · exact (h.phase j).frame rfl (fun _ => Iff.rfl) (fun hr => hsame ▸ hr) id (fun ht hr => ⟨ht, hsame ▸ hr⟩) id

theorem Sound.finish (h : p.Sound) (hbusy : p.worker v = .busy k) (x : Except CompileError Path) :
    Sound { p with
      worker := Function.update p.worker v .idle
      slot := Function.update p.slot k (p.slot k ++ [.compiled (jobs.get k) x]) } := by
  refine ⟨h.started, h.started_le, h.reach_le, h.feeding, h.dropping, fun v' hv' => ?_, fun j => ?_⟩
  · by_cases hv : v' = v
    · subst hv
      simp at hv'
    · exact h.done v' (by simpa [Function.update_of_ne hv] using hv')
  · by_cases hj : j = k
    · subst hj
      cases h.phase j with
      | waiting _ _ hf => exact absurd hbusy (hf v)
      | running u ht hs hb ho =>
        obtain rfl := ho v hbusy
        refine .finished x ht (by simp [hs]) fun v' hv' => ?_
        by_cases hv : v' = v
        · subst hv
          simp at hv'
        · exact hv (ho v' (by simpa [Function.update_of_ne hv] using hv'))
      | finished _ _ _ hf => exact absurd hbusy (hf v)
      | left _ _ _ _ hf => exact absurd hbusy (hf v)
    · refine (h.phase j).frame (Function.update_of_ne hj _ _) (update_busy_iff ?_ ?_) id id (fun ht hr => ⟨ht, hr⟩) id
      · rw [hbusy]
        exact fun he => hj (Worker.busy.inj he).symm
      · rintro ⟨⟩

theorem Sound.exit (h : p.Sound) (hclosed : p.feeder = .closed) (hidle : p.worker v = .idle) :
    Sound { p with worker := Function.update p.worker v .done } := by
  refine ⟨h.started, h.started_le, h.reach_le, h.feeding, h.dropping, fun _ _ => hclosed, fun j => ?_⟩
  refine (h.phase j).frame rfl (update_busy_iff ?_ ?_) id id (fun ht hr => ⟨ht, hr⟩) id
  · rw [hidle]
    rintro ⟨⟩
  · rintro ⟨⟩

theorem Sound.step {q : Pool jobs workers} (h : p.Sound) (hstep : p.Step q) : q.Sound := by
  cases hstep with
  | send hfeed hidle => exact h.send hfeed hidle
  | stop hfeed hcancel => exact h.stop hfeed hcancel
  | drop hdrop => exact h.drop hdrop
  | close hend => exact h.close hend
  | finish hbusy x => exact h.finish hbusy x
  | exit hclosed hidle => exact h.exit hclosed hidle

theorem Reachable.sound (h : p.Reachable) : p.Sound := by
  induction h with
  | start => exact sound_start
  | step _ hstep ih => exact ih.step hstep
  | cancel _ ih => exact ih.cancel

/-! ## Progress -/

/-- A worker that has not left has something to do, unless it waits for the feeder. -/
theorem exists_step_of_worker (hdone : p.worker v ≠ .done) (hidle : p.worker v = .idle → ∃ q, p.Step q) :
    ∃ q, p.Step q := by
  cases hv : p.worker v with
  | idle => exact hidle hv
  | busy k => exact ⟨_, .finish hv (.ok [])⟩
  | done => exact absurd hv hdone

theorem Sound.final_or_step (h : p.Sound) (hworkers : jobs ≠ [] → 0 < workers) :
    p.Final ∨ ∃ q, p.Step q := by
  have hle := h.reach_le
  cases hfeed : p.feeder with
  | feeding i =>
    rw [reach, hfeed] at hle
    refine .inr ?_
    rcases Nat.lt_or_eq_of_le hle with hlt | rfl
    · -- some worker takes the job, or will when it has finished its own
      have hpos : 0 < workers := hworkers fun hnil => by simp [hnil] at hlt
      have hdone : p.worker ⟨0, hpos⟩ ≠ .done := by
        intro hdone
        rw [h.done _ hdone] at hfeed
        cases hfeed
      exact exists_step_of_worker hdone fun hidle => ⟨_, .send (k := ⟨i, hlt⟩) hfeed hidle⟩
    · exact ⟨_, .close (.inl hfeed)⟩
  | dropping i =>
    rw [reach, hfeed] at hle
    refine .inr ?_
    rcases Nat.lt_or_eq_of_le hle with hlt | rfl
    · exact ⟨_, .drop (k := ⟨i, hlt⟩) hfeed⟩
    · exact ⟨_, .close (.inr hfeed)⟩
  | closed =>
    by_cases hall : ∀ v, p.worker v = .done
    · exact .inl ⟨hfeed, hall⟩
    · obtain ⟨v, hv⟩ := not_forall.1 hall
      exact .inr (exists_step_of_worker hv fun hidle => ⟨_, .exit hfeed hidle⟩)

def rest (p : Pool jobs workers) : Nat :=
  2 * (jobs.length - p.reach) + p.feeder.rest + ∑ v, (p.worker v).rest

theorem sum_update {n : Nat} (f : Fin n → Nat) (v : Fin n) (new : Nat) :
    ∑ u, Function.update f v new u + f v = ∑ u, f u + new := by
  have hnew := Finset.add_sum_erase Finset.univ (Function.update f v new) (Finset.mem_univ v)
  have hold := Finset.add_sum_erase Finset.univ f (Finset.mem_univ v)
  have hsame : ∑ u ∈ Finset.univ.erase v, Function.update f v new u = ∑ u ∈ Finset.univ.erase v, f u :=
    Finset.sum_congr rfl fun u hu => Function.update_of_ne (Finset.ne_of_mem_erase hu) _ _
  rw [Function.update_self] at hnew
  omega

theorem sum_rest_update (w : Fin workers → Worker jobs.length) (v : Fin workers) (new : Worker jobs.length) :
    ∑ u, (Function.update w v new u).rest + (w v).rest = ∑ u, (w u).rest + new.rest := by
  simp only [Function.apply_update fun _ => Worker.rest]
  exact sum_update (fun u => (w u).rest) v new.rest

/-- Every step leaves less to do. -/
theorem rest_lt_of_step {q : Pool jobs workers} (h : p.Step q) : q.rest < p.rest := by
  cases h with
  | @send k v hfeed hidle =>
    have hsum := sum_rest_update p.worker v (.busy k)
    have hk := k.isLt
    simp only [rest, reach, hfeed, hidle, Feeder.rest, Worker.rest] at hsum ⊢
    omega
  | @stop k hfeed _ =>
    simp only [rest, reach, hfeed, Feeder.rest]
    omega
  | @drop k hdrop =>
    have hk := k.isLt
    simp only [rest, reach, hdrop, Feeder.rest]
    omega
  | close hend =>
    rcases hend with hend | hend <;>
    · simp only [rest, reach, hend, Feeder.rest]
      omega
  | @finish k v hbusy x =>
    have hsum := sum_rest_update p.worker v .idle
    simp only [rest, reach, hbusy, Worker.rest] at hsum ⊢
    omega
  | @exit v _ hidle =>
    have hsum := sum_rest_update p.worker v .done
    simp only [rest, reach, hidle, Worker.rest] at hsum ⊢
    omega

/-! ## The end of a schedule -/

def report (p : Pool jobs workers) (hits misses : Nat) : Report := ⟨p.results, hits, misses⟩

structure Complete (p : Pool jobs workers) : Prop where
  /-- One result is written to each place, and it is the job's. -/
  written : ∀ k, ∃ r, p.slot k = [r] ∧ r.job = jobs.get k
  started : p.started.Nodup
  /-- The jobs run come before the jobs left out. -/
  ran : ∃ m ≤ jobs.length, (∀ k, k ∈ p.started ↔ k < m) ∧
    (∀ k : Fin jobs.length, k < m → ∃ x, p.slot k = [.compiled (jobs.get k) x]) ∧
    ∀ k : Fin jobs.length, m ≤ k → p.cancelled = true ∧ p.slot k = [.dropped (jobs.get k)]
  results : p.results.map JobResult.job = jobs
  counts : ∀ hits misses, (p.report hits misses).built + (p.report hits misses).failed = jobs.length
  /-- The failures are those at the places of the jobs, in the order of the jobs. -/
  failures : ∀ hits misses, (p.report hits misses).failures =
    (List.finRange jobs.length).filterMap fun k =>
      match p.slot k with
      | [⟨_, .error e⟩] => some (jobs.get k, e)
      | _ => none
  /-- There is none exactly when each job has an artifact. -/
  built : ∀ hits misses, ((p.report hits misses).failures = [] ↔ (p.report hits misses).failed = 0) ∧
    ((p.report hits misses).failed = 0 ↔ ∀ k, ∃ path, p.slot k = [⟨jobs.get k, .ok path⟩])

@[simp] theorem compiled_job (j : Job) (x : Except CompileError Path) : (JobResult.compiled j x).job = j := by
  cases x <;> rfl

/-- What is read at the places of the jobs, when one result is written to each. -/
theorem results_eq {r : Fin jobs.length → JobResult} (h : ∀ k, p.slot k = [r k]) :
    p.results = (List.finRange jobs.length).map r := by
  rw [results, ← List.filterMap_eq_map]
  exact List.filterMap_congr fun k _ => by simp [h k]

theorem results_eq_of_toList (hlen : rs.length = jobs.length)
    (h : ∀ k : Fin jobs.length, p.slot k = rs[k.val]?.toList) : p.results = rs := by
  have hslot : ∀ k : Fin jobs.length, p.slot k = [rs.get (k.cast hlen.symm)] := by
    intro k
    have hk : k.val < rs.length := k.isLt.trans_eq hlen.symm
    simp [h k, hk]
  rw [results_eq hslot]
  refine List.ext_getElem (by simp [hlen]) fun i hi _ => ?_
  simp

theorem Sound.length_started_le (h : p.Sound) : p.started.length ≤ jobs.length :=
  h.started_le.trans h.reach_le

theorem Sound.mem_started (h : p.Sound) (k : Fin jobs.length) :
    k ∈ p.started ↔ k < p.started.length := by
  rw [← List.mem_range, ← h.started, List.mem_map]
  constructor
  · exact fun hk => ⟨k, hk, rfl⟩
  · rintro ⟨j, hj, he⟩
    rwa [← Fin.ext he]

theorem Sound.nodup_started (h : p.Sound) : p.started.Nodup := by
  refine List.Nodup.of_map Fin.val ?_
  rw [h.started]
  exact List.nodup_range

theorem Sound.of_final (h : p.Sound) (hfinal : p.Final) (k : Fin jobs.length) :
    (k < p.started.length ∧ ∃ x, p.slot k = [.compiled (jobs.get k) x]) ∨
      (p.started.length ≤ k ∧ p.cancelled = true ∧ p.slot k = [.dropped (jobs.get k)]) := by
  cases h.phase k with
  | waiting hr =>
    rw [reach, hfinal.1] at hr
    exact absurd k.isLt (Nat.not_lt.2 hr)
  | running v _ _ hb =>
    rw [hfinal.2 v] at hb
    cases hb
  | finished x ht hs => exact .inl ⟨ht, x, hs⟩
  | left ht _ hc hs => exact .inr ⟨ht, hc, hs⟩

theorem Sound.written (h : p.Sound) (hfinal : p.Final) (k : Fin jobs.length) :
    ∃ r, p.slot k = [r] ∧ r.job = jobs.get k := by
  obtain ⟨_, x, hx⟩ | ⟨_, _, hd⟩ := h.of_final hfinal k
  · exact ⟨_, hx, compiled_job _ x⟩
  · exact ⟨_, hd, rfl⟩

theorem Sound.complete (h : p.Sound) (hfinal : p.Final) : p.Complete := by
  obtain ⟨r, hr⟩ := Classical.axiomOfChoice (h.written hfinal)
  have hresults : p.results = (List.finRange jobs.length).map r := results_eq fun k => (hr k).1
  have hfailures : ∀ hits misses, (p.report hits misses).failures =
      (List.finRange jobs.length).filterMap fun k =>
        match p.slot k with
        | [⟨_, .error e⟩] => some (jobs.get k, e)
        | _ => none := by
    intro hits misses
    rw [Report.failures, report, hresults, List.filterMap_map]
    refine List.filterMap_congr fun k _ => ?_
    obtain ⟨hslot, hjob⟩ := hr k
    rw [hslot, ← hjob, Function.comp_apply]
    rcases r k with ⟨j, e | path⟩ <;> rfl
  refine ⟨h.written hfinal, h.nodup_started, ⟨p.started.length, h.length_started_le, h.mem_started, ?_, ?_⟩, ?_, ?_,
    hfailures, fun hits misses => ⟨List.length_eq_zero_iff.symm, ?_⟩⟩
  · intro k hk
    obtain ⟨_, hx⟩ | ⟨hle, _⟩ := h.of_final hfinal k
    · exact hx
    · omega
  · intro k hk
    obtain ⟨hlt, _⟩ | ⟨_, hd⟩ := h.of_final hfinal k
    · omega
    · exact hd
  · rw [hresults, List.map_map]
    refine List.ext_getElem (by simp) fun i hi _ => ?_
    simp [(hr _).2]
  · intro hits misses
    have hle : (p.report hits misses).failed ≤ (p.report hits misses).results.length := List.length_filterMap_le _ _
    have hlen : (p.report hits misses).results.length = jobs.length := by simp [report, hresults]
    rw [Report.built]
    omega
  · rw [Report.failed, List.length_eq_zero_iff, hfailures, List.filterMap_eq_nil_iff]
    refine ⟨fun hnone k => ?_, fun hok k _ => ?_⟩
    · have hk := hnone k (List.mem_finRange k)
      obtain ⟨hslot, hjob⟩ := hr k
      rw [hslot] at hk ⊢
      rcases he : r k with ⟨j, e | path⟩
      · simp [he] at hk
      · exact ⟨path, by rw [← hjob, he]⟩
    · obtain ⟨path, hpath⟩ := hok k
      rw [hpath]

/-! ## One job after another -/

/-- All workers are free, and the places hold these results. -/
structure Served (p : Pool jobs workers) (rs : List JobResult) : Prop where
  reachable : p.Reachable
  idle : ∀ v, p.worker v = .idle
  slot : ∀ k : Fin jobs.length, p.slot k = rs[k.val]?.toList

theorem served_start : Served ({} : Pool jobs workers) [] := ⟨.start, fun _ => rfl, fun _ => by simp⟩

theorem slot_concat {slot : Fin jobs.length → List JobResult} {r : JobResult}
    (h : ∀ k : Fin jobs.length, slot k = rs[k.val]?.toList) (hk : rs.length = k) (j : Fin jobs.length) :
    Function.update slot k (slot k ++ [r]) j = ((rs ++ [r])[j.val]?).toList := by
  by_cases hj : j = k
  · subst hj
    simp [h j, ← hk]
  · have hne : (j : Nat) ≠ rs.length := fun he => hj (Fin.ext (he.trans hk))
    rw [Function.update_of_ne hj, h j]
    rcases Nat.lt_or_gt_of_ne hne with hlt | hgt
    · rw [List.getElem?_append_left hlt]
    · rw [List.getElem?_eq_none hgt.le, List.getElem?_eq_none (by rw [List.length_append]; exact hgt)]

theorem Served.ran (h : p.Served rs) (hk : rs.length = k) (hfeed : p.feeder = .feeding k) (v : Fin workers)
    (x : Except CompileError Path) :
    ∃ q : Pool jobs workers, q.Served (rs ++ [.compiled (jobs.get k) x]) ∧ q.feeder = .feeding (k + 1) := by
  refine ⟨_, ⟨(h.reachable.step (.send hfeed (h.idle v))).step (.finish (v := v) (by simp) x), fun u => ?_,
    slot_concat h.slot hk⟩, rfl⟩
  by_cases hu : u = v
  · simp [hu]
  · simp [Function.update_of_ne hu, h.idle u]

theorem Served.stopped (h : p.Served rs) (hfeed : p.feeder = .feeding k) :
    ∃ q : Pool jobs workers, q.Served rs ∧ q.feeder = .dropping k :=
  ⟨_, ⟨h.reachable.cancel.step (.stop hfeed rfl), h.idle, h.slot⟩, rfl⟩

theorem get_of_drop_eq_cons {i : Nat} {j : Job} {rest : List Job} (h : j :: rest = jobs.drop i) :
    ∃ hi : i < jobs.length, j = jobs.get ⟨i, hi⟩ ∧ rest = jobs.drop (i + 1) := by
  have hi : i < jobs.length := by
    by_contra hge
    rw [List.drop_eq_nil_of_le (Nat.not_lt.1 hge)] at h
    cases h
  rw [List.drop_eq_getElem_cons hi, List.cons.injEq] at h
  exact ⟨hi, h⟩

theorem Served.left {rest : List Job} :
    ∀ {p : Pool jobs workers} {rs : List JobResult}, p.Served rs → rest = jobs.drop rs.length →
      p.feeder = .dropping rs.length → rs.length ≤ jobs.length →
      ∃ q : Pool jobs workers, q.Served (rs ++ rest.map .dropped) ∧ q.feeder = .dropping jobs.length := by
  induction rest with
  | nil =>
    intro p rs h hrest hfeed hle
    have hlen : rs.length = jobs.length := hle.antisymm (List.drop_eq_nil_iff.1 hrest.symm)
    exact ⟨p, by simpa using h, hlen ▸ hfeed⟩
  | cons j rest ih =>
    intro p rs h hrest hfeed hle
    obtain ⟨hk, rfl, hrest'⟩ := get_of_drop_eq_cons hrest
    have hnext : Served _ (rs ++ [.dropped (jobs.get ⟨rs.length, hk⟩)]) :=
      ⟨h.reachable.step (.drop (k := ⟨rs.length, hk⟩) hfeed), h.idle, slot_concat h.slot rfl⟩
    obtain ⟨q, hq, hqfeed⟩ := ih hnext (by simpa using hrest') (by simp) (by simp; omega)
    exact ⟨q, by simpa using hq, hqfeed⟩

theorem Served.exited (h : p.Served rs) (hclosed : p.feeder = .closed) (m : Nat) :
    m ≤ workers → ∃ q : Pool jobs workers, q.Reachable ∧ q.feeder = .closed ∧ q.slot = p.slot ∧
      ∀ v, q.worker v = if v < m then .done else .idle := by
  induction m with
  | zero => exact fun _ => ⟨p, h.reachable, hclosed, rfl, fun v => by simp [h.idle v]⟩
  | succ m ih =>
    intro hm
    obtain ⟨q, hq, hqclosed, hslot, hworker⟩ := ih (Nat.le_of_succ_le hm)
    have hidle : q.worker ⟨m, hm⟩ = .idle := by simp [hworker]
    refine ⟨_, hq.step (.exit hqclosed hidle), hqclosed, hslot, fun v => ?_⟩
    by_cases hv : v = ⟨m, hm⟩
    · simp [hv]
    · have hne : (v : Nat) ≠ m := fun he => hv (Fin.ext he)
      have hiff : (v : Nat) < m + 1 ↔ (v : Nat) < m := by omega
      simp only [Function.update_of_ne hv, hworker v, hiff]

theorem Served.final (h : p.Served rs) (hend : p.feeder = .feeding jobs.length ∨ p.feeder = .dropping jobs.length)
    (hlen : rs.length = jobs.length) :
    ∃ q : Pool jobs workers, q.Reachable ∧ q.Final ∧ q.results = rs := by
  have hclosed : Served { p with feeder := .closed } rs := ⟨h.reachable.step (.close hend), h.idle, h.slot⟩
  obtain ⟨q, hq, hqclosed, hslot, hworker⟩ := hclosed.exited rfl workers le_rfl
  refine ⟨q, hq, ⟨hqclosed, fun v => by simp [hworker]⟩, results_eq_of_toList hlen fun k => ?_⟩
  rw [hslot, h.slot]

end Pool

theorem Action.run_mapM_cons {α β : Type} (f : α → Action β) (a : α) (l : List α) (w : World) :
    ((a :: l).mapM f).run w =
      (((f a).run w).1 :: ((l.mapM f).run ((f a).run w).2).1, ((l.mapM f).run ((f a).run w).2).2) := by
  rw [List.mapM_cons]
  rfl

theorem run_runJob (o : BuildOptions) (j : Job) (w : World) :
    (runJob o j).run w = if w.cancelled then (.dropped j, w) else (compileJob o j).run w := by
  rw [runJob, Action.run_bind, Action.run_get]
  split <;> rfl

theorem exists_compiled (o : BuildOptions) (j : Job) (w : World) :
    ∃ x, ((compileJob o j).run w).1 = .compiled j x :=
  ⟨_, rfl⟩

theorem run_jobs_of_cancelled (o : BuildOptions) {w : World} (hw : w.cancelled = true) (js : List Job) :
    (js.mapM (runJob o)).run w = (js.map .dropped, w) := by
  induction js with
  | nil => rfl
  | cons j js ih => rw [Action.run_mapM_cons, run_runJob, if_pos hw, ih, List.map_cons]

/-- The schedule of the jobs that are left, from a pool that has run those before them. -/
theorem exists_schedule_of_served (o : BuildOptions) (rest : List Job) (hworkers : jobs ≠ [] → 0 < workers) :
    ∀ {p : Pool jobs workers} {rs : List JobResult} (w : World), p.Served rs → rest = jobs.drop rs.length →
      p.feeder = .feeding rs.length → rs.length ≤ jobs.length →
      ∃ q : Pool jobs workers, q.Reachable ∧ q.Final ∧ q.results = rs ++ ((rest.mapM (runJob o)).run w).1 := by
  induction rest with
  | nil =>
    intro p rs w h hrest hfeed hle
    have hlen : rs.length = jobs.length := hle.antisymm (List.drop_eq_nil_iff.1 hrest.symm)
    obtain ⟨q, hq, hfinal, hresults⟩ := h.final (.inl (hlen ▸ hfeed)) hlen
    exact ⟨q, hq, hfinal, by rw [hresults]; exact (List.append_nil rs).symm⟩
  | cons j rest ih =>
    intro p rs w h hrest hfeed hle
    obtain ⟨hk, hj, hrest'⟩ := Pool.get_of_drop_eq_cons hrest
    by_cases hw : w.cancelled = true
    · -- the feeder sees that work is cancelled before a worker takes the job
      obtain ⟨q, hq, hqfeed⟩ := h.stopped (k := ⟨rs.length, hk⟩) hfeed
      obtain ⟨q', hq', hqfeed'⟩ := hq.left hrest hqfeed hle
      rw [run_jobs_of_cancelled o hw]
      refine hq'.final (.inr hqfeed') ?_
      rw [List.length_append, List.length_map, hrest, List.length_drop]
      omega
    · obtain ⟨x, hx⟩ := exists_compiled o j w
      have hpos : 0 < workers := hworkers (List.ne_nil_of_length_pos (Nat.zero_lt_of_lt hk))
      obtain ⟨q, hq, hqfeed⟩ := h.ran (k := ⟨rs.length, hk⟩) rfl hfeed ⟨0, hpos⟩ x
      obtain ⟨q', hq', hfinal, hresults⟩ :=
        ih ((compileJob o j).run w).2 hq (by simpa using hrest') (by simpa using hqfeed) (by simp; omega)
      refine ⟨q', hq', hfinal, ?_⟩
      rw [hresults, Action.run_mapM_cons, run_runJob, if_neg hw, hx, hj, List.append_assoc]
      rfl

theorem exists_schedule (o : BuildOptions) (w : World) (hworkers : jobs ≠ [] → 0 < workers) :
    ∃ p : Pool jobs workers, p.Reachable ∧ p.Final ∧ p.results = ((jobs.mapM (runJob o)).run w).1 :=
  exists_schedule_of_served o jobs hworkers w Pool.served_start rfl rfl (Nat.zero_le _)

theorem workerCount_pos {asked : Int} {processors : Nat} (hprocessors : 0 < processors) (hjobs : jobs ≠ []) :
    0 < workerCount asked processors jobs.length := by
  have hlen : 0 < jobs.length := List.length_pos_iff.2 hjobs
  rw [workerCount]
  split <;> omega

/-- Jobs on workers: no schedule comes to a stop before its end, each comes to its end after finitely many steps, and
then nothing is lost and nothing is done twice. The jobs in sequence are one such schedule. -/
theorem schedule_complete (jobs : List Job) (asked : Int) (processors : Nat) (hprocessors : 0 < processors) :
    (∀ p : Pool jobs (workerCount asked processors jobs.length), p.Reachable →
      (p.Final ∨ ∃ q, p.Step q) ∧ (∀ q, p.Step q → q.rest < p.rest) ∧ (p.Final → p.Complete)) ∧
    ∀ (o : BuildOptions) (w : World), ∃ p : Pool jobs (workerCount asked processors jobs.length),
      p.Reachable ∧ p.Final ∧ p.results = ((jobs.mapM (runJob o)).run w).1 := by
  refine ⟨fun p hp => ⟨?_, fun q => Pool.rest_lt_of_step, hp.sound.complete⟩, fun o w => ?_⟩
  · exact hp.sound.final_or_step (workerCount_pos hprocessors)
  · exact exists_schedule o w (workerCount_pos hprocessors)

def twoJobs : List Job :=
  [⟨"a", "src/a.hlsl", "a.hlsl", "a.hlsl.bin"⟩, ⟨"b", "src/b.hlsl", "b.hlsl", "b.hlsl.bin"⟩]

/-- Two jobs on two workers: one is run, and the work is cancelled before the other is handed over. -/
theorem schedule_complete_cancelled :
    0 < 4 ∧ ∃ p : Pool twoJobs (workerCount 0 4 twoJobs.length),
      p.Reachable ∧ p.Final ∧ p.Complete ∧ p.started.length = 1 := by
  have hstart : Pool.Reachable ({} : Pool twoJobs (workerCount 0 4 twoJobs.length)) := .start
  have hcancelled := (hstart.step (.send (k := ⟨0, by decide⟩) (v := ⟨1, by decide⟩) rfl rfl)).cancel
  have hdropped := (hcancelled.step (.stop (k := ⟨1, by decide⟩) rfl rfl)).step (.drop (k := ⟨1, by decide⟩) rfl)
  have hclosed := (hdropped.step (.close (.inr rfl))).step
    (.finish (k := ⟨0, by decide⟩) (v := ⟨1, by decide⟩) rfl (.ok "out/a.hlsl.bin"))
  have hleft := (hclosed.step (.exit (v := ⟨0, by decide⟩) rfl rfl)).step (.exit (v := ⟨1, by decide⟩) rfl rfl)
  refine ⟨by decide, _, hleft, ⟨rfl, by decide⟩, ?_, rfl⟩
  exact ((schedule_complete twoJobs 0 4 (by decide)).1 _ hleft).2.2 ⟨rfl, by decide⟩

end ShaderForge
