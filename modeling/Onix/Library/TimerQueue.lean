import Mathlib.Data.List.Pairwise
import Mathlib.Order.Basic
import Mathlib.Tactic

/-! Queues of entries that become due at a time, kept in the order of these times.

An entry is inserted behind every entry that is due no later, and the due entries are taken from
the front up to the first that is not due yet. On a sorted queue these are all of them. -/

namespace TimerQueue

variable {α K : Type} [LinearOrder K]

/-- A queue holds the entries that have arrived, by time and then by arrival. -/
structure InOrder (entries arrivals : List (α × K)) : Prop where
  sorted : entries.Pairwise fun e f => e.2 ≤ f.2
  stable : ∀ k, entries.filter (·.2 = k) = arrivals.filter (·.2 = k)

/-- Put an entry behind every entry that is due no later. -/
def insert (entries : List (α × K)) (e : α × K) : List (α × K) :=
  entries.takeWhile (·.2 ≤ e.2) ++ e :: entries.dropWhile (·.2 ≤ e.2)

variable {entries arrivals : List (α × K)}

theorem takeWhile_eq_filter (hsorted : entries.Pairwise fun e f => e.2 ≤ f.2) (now : K) :
    entries.takeWhile (·.2 ≤ now) = entries.filter (·.2 ≤ now) := by
  induction entries with
  | nil => rfl
  | cons e entries ih =>
    obtain ⟨hfirst, hrest⟩ := List.pairwise_cons.mp hsorted
    by_cases he : e.2 ≤ now
    · simp [he, ih hrest]
    · have hlater : ∀ f ∈ entries, ¬ f.2 ≤ now := fun f hf hle => he ((hfirst f hf).trans hle)
      have hnone : entries.filter (·.2 ≤ now) = [] := by
        rw [List.filter_eq_nil_iff]
        simpa using hlater
      simp [he, hnone]

theorem dropWhile_eq_filter (hsorted : entries.Pairwise fun e f => e.2 ≤ f.2) (now : K) :
    entries.dropWhile (·.2 ≤ now) = entries.filter (now < ·.2) := by
  induction entries with
  | nil => rfl
  | cons e entries ih =>
    obtain ⟨hfirst, hrest⟩ := List.pairwise_cons.mp hsorted
    by_cases he : e.2 ≤ now
    · simp [he, not_lt.mpr he, ih hrest]
    · have hall : entries.filter (now < ·.2) = entries := by
        rw [List.filter_eq_self]
        simpa using fun t k hf => (not_le.mp he).trans_le (hfirst (t, k) hf)
      simp [he, not_le.mp he, hall]

namespace InOrder

theorem nil : InOrder ([] : List (α × K)) [] := ⟨List.Pairwise.nil, fun _ => rfl⟩

theorem mem_iff (h : InOrder entries arrivals) (e : α × K) : e ∈ entries ↔ e ∈ arrivals := by
  have hiff : ∀ l : List (α × K), e ∈ l ↔ e ∈ l.filter (·.2 = e.2) := fun l => by simp
  rw [hiff entries, h.stable, ← hiff]

/-- An entry that arrives is last among the entries due at its time. -/
theorem insert (h : InOrder entries arrivals) (e : α × K) :
    InOrder (insert entries e) (arrivals ++ [e]) := by
  have htake := takeWhile_eq_filter h.sorted e.2
  have hdrop := dropWhile_eq_filter h.sorted e.2
  refine ⟨?_, fun k => ?_⟩
  · rw [TimerQueue.insert, htake, hdrop, List.pairwise_append, List.pairwise_cons]
    refine ⟨h.sorted.filter _, ⟨fun f hf => ?_, h.sorted.filter _⟩, fun f hf g hg => ?_⟩
    · exact (by simpa using hf : f ∈ entries ∧ e.2 < f.2).2.le
    · have hf : f.2 ≤ e.2 := (by simpa using hf : f ∈ entries ∧ f.2 ≤ e.2).2
      rcases List.mem_cons.mp hg with rfl | hg
      · exact hf
      · exact hf.trans (by simpa using hg : g ∈ entries ∧ e.2 < g.2).2.le
  · -- the entries due at the time of `e` are all in front of it
    have hstable := h.stable k
    rw [← List.takeWhile_append_dropWhile (p := fun f => f.2 ≤ e.2) (l := entries),
      List.filter_append] at hstable
    rw [TimerQueue.insert, List.filter_append, List.filter_append, ← hstable]
    by_cases hk : e.2 = k
    · have hnone : (entries.dropWhile (·.2 ≤ e.2)).filter (·.2 = k) = [] := by
        rw [hdrop, List.filter_filter, List.filter_eq_nil_iff]
        intro f hf hboth
        simp only [Bool.and_eq_true, decide_eq_true_eq] at hboth
        exact absurd (hboth.1.trans hk.symm) hboth.2.ne'
      simp [hk, hk ▸ hnone]
    · simp [hk]

/-- What is left of a queue when the due entries are taken from its front is what has not become
due. -/
theorem expire (h : InOrder entries arrivals) (now : K) :
    InOrder (entries.dropWhile (·.2 ≤ now)) (arrivals.filter (now < ·.2)) := by
  rw [dropWhile_eq_filter h.sorted]
  refine ⟨h.sorted.filter _, fun k => ?_⟩
  have hcomm : ∀ l : List (α × K), (l.filter (now < ·.2)).filter (·.2 = k) =
      (l.filter (·.2 = k)).filter (now < ·.2) := fun l => by
    simp only [List.filter_filter, Bool.and_comm]
  rw [hcomm, hcomm, h.stable]

end InOrder

end TimerQueue
