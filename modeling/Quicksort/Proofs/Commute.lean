import Mathlib.Data.List.Pairwise
import Mathlib.GroupTheory.Perm.Support
import Quicksort.Proofs.Lockstep

/-
  Sorts of segments that share no slot.

  A sort moves nothing outside its segment, and what it does there depends on
  nothing outside. So two sorts of segments that lie apart make the same moves
  in either order, and permutations that move different slots commute
  (`Rearranges.comm`). Their work adds up in either order, and without random
  pivots the generator stays where it is: such sorts commute as a whole
  (`sortSegment_comm`). A random pivot is drawn from whatever generator the
  other sort has left, so there the work depends on the order. The buffer does
  not, since every sort leaves the buffer that one without random pivots leaves
  (`buffer_runJobs_plain`).
-/

namespace Quicksort

variable {n : Nat} {s t : Segment n} {σ τ : Equiv.Perm (Fin n)} {rule : PivotRule}

namespace Segment

/-- The segments have no slot in common. -/
def Apart (s t : Segment n) : Prop := ∀ k : Fin n, ↑k ∈ s → ↑k ∉ t

instance (s t : Segment n) : Decidable (s.Apart t) :=
  inferInstanceAs (Decidable (∀ k : Fin n, ↑k ∈ s → ↑k ∉ t))

theorem Apart.symm (h : s.Apart t) : t.Apart s :=
  fun k hk hk' => h k hk' hk

end Segment

/-! ## Two sorts -/

namespace Rearranges

variable {xs ys ys' zs zs' : Vector Int32 n}

theorem commute (hst : s.Apart t) (hs : Rearranges s σ xs ys) (ht : Rearranges t τ xs ys') :
    Commute σ τ := by
  apply Equiv.Perm.Disjoint.commute
  intro k
  by_cases hk : ↑k ∈ s
  · exact .inr (ht.fixes k (hst k hk))
  · exact .inl (hs.fixes k hk)

theorem comm (hst : s.Apart t) (hs : Rearranges s σ xs ys) (ht : Rearranges t τ ys zs)
    (ht' : Rearranges t τ xs ys') (hs' : Rearranges s σ ys' zs') : zs = zs' := by
  have hswap : σ * τ = τ * σ := hs.commute hst ht'
  ext k hk
  calc zs.get ⟨k, hk⟩
      = xs.get ((σ * τ) ⟨k, hk⟩) := by rw [ht.source, hs.source, Equiv.Perm.mul_apply]
    _ = xs.get ((τ * σ) ⟨k, hk⟩) := by rw [hswap]
    _ = zs'.get ⟨k, hk⟩ := by rw [hs'.source, ht'.source, Equiv.Perm.mul_apply]

end Rearranges

/-- A sort elsewhere cannot be seen from a segment, if no pivot is drawn at random. -/
theorem matched_sortSegment (hst : s.Apart t) (hrule : rule ≠ .random) (cfg : Config)
    (st : State n) : Matched rule s st (sortSegment cfg t st) where
  alike := by
    apply Alike.of_agree
    intro k hk
    exact ((sortSegment_isSorting cfg t st).frame k (hst k hk)).symm
  draws hr := absurd hr hrule

theorem sortSegment_comm (hst : s.Apart t) {cfg cfg' : Config} (hrule : cfg.pivot ≠ .random)
    (hrule' : cfg'.pivot ≠ .random) (st : State n) :
    sortSegment cfg' t (sortSegment cfg s st) = sortSegment cfg s (sortSegment cfg' t st) := by
  -- Each sort does the same work and makes the same moves before and after the other.
  obtain ⟨σ, w, hs, hs'⟩ :=
    (sortSegment_lockstep cfg (matched_sortSegment hst hrule cfg' st)).moves
  obtain ⟨τ, v, ht, ht'⟩ :=
    (sortSegment_lockstep cfg' (matched_sortSegment hst.symm hrule' cfg st)).moves
  have hgenerator (st' : State n) :
      (sortSegment cfg s st').session.generator = st'.session.generator :=
    generator_sortSegment hrule cfg.schedule s st'
  have hgenerator' (st' : State n) :
      (sortSegment cfg' t st').session.generator = st'.session.generator :=
    generator_sortSegment hrule' cfg'.schedule t st'
  apply State.ext
  · exact Rearranges.comm hst hs.rearranges ht'.rearranges ht.rearranges hs'.rearranges
  · apply Session.ext
    · rw [ht'.tally, hs.tally, hs'.tally, ht.tally, add_right_comm]
    · rw [hgenerator', hgenerator, hgenerator, hgenerator']

/-! ## Any number of sorts -/

/-- A sort of a segment, with a configuration of its own. -/
structure Job (n : Nat) where
  cfg : Config
  segment : Segment n
  deriving DecidableEq, Repr

namespace Job

def run (job : Job n) (st : State n) : State n := sortSegment job.cfg job.segment st

/-- The same sort with the default configuration, which draws no pivot at random. -/
def plain (job : Job n) : Job n := { job with cfg := {} }

/-- The segments of the two sorts lie apart. -/
def Apart (a b : Job n) : Prop := a.segment.Apart b.segment

instance (a b : Job n) : Decidable (a.Apart b) :=
  inferInstanceAs (Decidable (a.segment.Apart b.segment))

instance : Std.Symm (@Apart n) where
  symm _ _ h := Segment.Apart.symm h

end Job

/-- Sorts one after the other, each in the state that the one before has left. -/
def runJobs (jobs : List (Job n)) (st : State n) : State n :=
  jobs.foldl (fun st job => job.run st) st

theorem runJobs_cons (job : Job n) (jobs : List (Job n)) (st : State n) :
    runJobs (job :: jobs) st = runJobs jobs (job.run st) := rfl

theorem runJobs_perm {jobs jobs' : List (Job n)} (hperm : jobs.Perm jobs')
    (hapart : jobs.Pairwise Job.Apart) (hrule : ∀ job ∈ jobs, job.cfg.pivot ≠ .random) (st : State n) :
    runJobs jobs st = runJobs jobs' st := by
  apply hperm.foldl_eq'
  intro a ha b hb st
  by_cases hab : a = b
  · rw [hab]
  · have hsegments : a.segment.Apart b.segment := hapart.forall ha hb hab
    exact sortSegment_comm hsegments (hrule a ha) (hrule b hb) st

theorem buffer_runJobs_plain (jobs : List (Job n)) (st st' : State n)
    (h : st.buffer = st'.buffer) :
    (runJobs jobs st).buffer = (runJobs (jobs.map Job.plain) st').buffer := by
  induction jobs generalizing st st' with
  | nil => exact h
  | cons job jobs ih =>
    rw [List.map_cons, runJobs_cons, runJobs_cons]
    apply ih
    obtain ⟨xs, se⟩ := st
    obtain ⟨ys, se'⟩ := st'
    obtain rfl : xs = ys := h
    exact sortSegment_buffer_eq job.cfg {} job.segment xs se se'

/-- Sorts of segments that lie apart leave the same buffer in every order. If none of them
draws a pivot at random, the tally and the generator are the same too. -/
theorem disjoint_sorts_commute {jobs jobs' : List (Job n)} (hperm : jobs.Perm jobs')
    (hapart : jobs.Pairwise Job.Apart) (st : State n) :
    (runJobs jobs st).buffer = (runJobs jobs' st).buffer ∧
      ((∀ job ∈ jobs, job.cfg.pivot ≠ .random) → runJobs jobs st = runJobs jobs' st) := by
  refine ⟨?_, fun hrule => runJobs_perm hperm hapart hrule st⟩
  have hplain : runJobs (jobs.map Job.plain) st = runJobs (jobs'.map Job.plain) st := by
    apply runJobs_perm (hperm.map Job.plain)
    · exact hapart.map Job.plain fun _ _ h => h
    · intro job hjob
      obtain ⟨job', -, rfl⟩ := List.mem_map.mp hjob
      show PivotRule.firstSlot ≠ .random
      decide
  calc (runJobs jobs st).buffer
      = (runJobs (jobs.map Job.plain) st).buffer := buffer_runJobs_plain jobs st st rfl
    _ = (runJobs (jobs'.map Job.plain) st).buffer := by rw [hplain]
    _ = (runJobs jobs' st).buffer := (buffer_runJobs_plain jobs' st st rfl).symm

/-- Three sorts on one buffer, carried out from left to right and in another order. -/
theorem disjoint_sorts_commute_three :
    let a : Job 7 := ⟨⟨.firstSlot, .leftFirst⟩, ⟨0, 3, by decide, by decide⟩⟩
    let b : Job 7 := ⟨⟨.medianOfThree, .workStack⟩, ⟨3, 6, by decide, by decide⟩⟩
    let c : Job 7 := ⟨⟨.medianOfThree, .smallerFirst⟩, ⟨6, 7, by decide, by decide⟩⟩
    let st : State 7 := ⟨#v[5, 1, 5, 0, -3, 2, -9], ⟨⟨4, 1, 1, 2⟩, .ofSeed 3⟩⟩
    [a, b, c].Perm [c, b, a] ∧ [a, b, c].Pairwise Job.Apart ∧
      (∀ job ∈ [a, b, c], job.cfg.pivot ≠ .random) ∧
      (runJobs [a, b, c] st).buffer = (runJobs [c, b, a] st).buffer ∧
      runJobs [a, b, c] st = runJobs [c, b, a] st := by
  intro a b c st
  have hperm : [a, b, c].Perm [c, b, a] := by decide
  have hapart : [a, b, c].Pairwise Job.Apart := by decide
  have hrule : ∀ job ∈ [a, b, c], job.cfg.pivot ≠ .random := by decide
  obtain ⟨hbuffer, hstate⟩ := disjoint_sorts_commute hperm hapart st
  exact ⟨hperm, hapart, hrule, hbuffer, hstate hrule⟩

end Quicksort
