/-
Expiry of cached announcements.

Times are in milliseconds since the first `sendAlive`, over any ordered field, so
that a reply may be sent at any instant.  The program waits for one thing at a
time: `main` for its pause to end, and then the alive thread for its sleep to end.
`wake` is the instant at which that happens, and no time passes beyond it before
the program has moved on.

A reply may shorten a lifetime to twenty minutes, and no sleep is longer than three.
The invariant `Fresh` puts the two together: every announced entry outlives the
next instant of waking, at which the announcements are repeated.
-/
import Mathlib.Algebra.Field.Rat
import Mathlib.Algebra.Order.Field.Basic
import Mathlib.Algebra.Order.Ring.Rat
import Mathlib.Logic.Relation
import Mathlib.Tactic.Linarith
import Mathlib.Tactic.NormNum
import MediaServer.Network.ControlPoint

namespace MediaServer
namespace Upnp

open Text Neptune Machine

/-- What the program waits for: the pause of `main`, or the sleep of the alive
thread with its `delay`. -/
inductive Phase where
  | pause
  | listening (delay : Int)

structure Clocked (K : Type) where
  now : K
  wake : K
  phase : Phase
  expiry : Cache Str K

def nextDelay (delay : Int) : Int := if delay = 10000 then 20000 else 180000

section Runs

variable {K : Type} [Field K]

def stamp (now : K) : Update Str Entry → Update Str K :=
  Update.map fun entry => now + 1000 * (entry.maxAge : K)

def deliver (cache : Cache Str K) (now : K) (datagrams : List Datagram) : Cache Str K :=
  cache.applyAll ((heardAll datagrams).map (stamp now))

/-- The first `sendAlive`, at the start of the pause. -/
def start (gMS : MediaServerPP) : Clocked K where
  now := 0
  wake := 250
  phase := .pause
  expiry := deliver Cache.empty 0 (sendAlive gMS)

/-- A step: time passes, the pause ends and `listen` starts both threads, the alive
thread wakes, or the listener sends a reply for an announced target. -/
inductive Step [LE K] (gMS : MediaServerPP) : Clocked K → Clocked K → Prop where
  | elapse (s : Clocked K) (d : K) (hd : 0 ≤ d) (hwake : s.now + d ≤ s.wake) :
      Step gMS s { s with now := s.now + d }
  | listen (s : Clocked K) (hphase : s.phase = .pause) (hwake : s.now = s.wake) :
      Step gMS s { s with phase := .listening 10000, wake := s.now + 10000 }
  | alive (s : Clocked K) (delay : Int) (hphase : s.phase = .listening delay)
      (hwake : s.now = s.wake) :
      Step gMS s
        { s with
          phase := .listening (nextDelay delay)
          wake := s.now + (nextDelay delay : K)
          expiry := deliver s.expiry s.now (sendAlive gMS) }
  | reply (s : Clocked K) (delay : Int) (hphase : s.phase = .listening delay)
      (time : TimeStamp) (host : Str) (port : Int32) (t : Str) (ht : t ∈ announced gMS) :
      Step gMS s
        { s with expiry := deliver s.expiry s.now [sendDiscover gMS time host port t] }

/-! ## What deliveries leave in the cache -/

variable {gMS : MediaServerPP}

theorem deliver_sendAlive (cache : Cache Str K) (now : K) {t : Str} (ht : t ∈ announced gMS) :
    deliver cache now (sendAlive gMS) (usn gMS.udnString t) =
      some (now + 1000 * ((1800 : Nat) : K)) := by
  have hmem : usn gMS.udnString t ∈ (announced gMS).map (usn gMS.udnString) :=
    List.mem_map_of_mem ht
  have hputs : (heardAll (sendAlive gMS)).map (stamp now) =
      ((announced gMS).map (usn gMS.udnString)).map fun key =>
        .put key (now + 1000 * ((1800 : Nat) : K)) := by
    rw [heardAll_sendAlive, List.map_map, List.map_map]
    rfl
  rw [deliver, hputs, Cache.applyAll_puts, if_pos hmem]

/-- A reply gives its target twenty minutes and leaves the others alone. -/
theorem deliver_reply (cache : Cache Str K) (now : K) {t : Str} (ht : t ∈ announced gMS)
    (time : TimeStamp) (host : Str) (port : Int32) (t' : Str) :
    deliver cache now [sendDiscover gMS time host port t] (usn gMS.udnString t') =
      if t' = t then some (now + 1000 * ((1200 : Nat) : K))
      else cache (usn gMS.udnString t') := by
  have hputs : (heardAll [sendDiscover gMS time host port t]).map (stamp now) =
      [usn gMS.udnString t].map fun key => .put key (now + 1000 * ((1200 : Nat) : K)) := by
    rw [heardAll, List.filterMap_cons, heard_reply ht]
    rfl
  rw [deliver, hputs, Cache.applyAll_puts]
  simp only [List.mem_singleton, (usn_injective gMS.udnString).eq_iff]

end Runs

section Expiry

variable {K : Type} [Field K] [LinearOrder K] [IsStrictOrderedRing K] {gMS : MediaServerPP}

theorem nextDelay_bounds (delay : Int) :
    (0 : K) ≤ (nextDelay delay : K) ∧ (nextDelay delay : K) ≤ 180000 := by
  unfold nextDelay
  split
  · norm_num
  · norm_num

/-- The time that may pass between an instant of waking and the announcements after
it: the first sleep of the alive thread, while `main` still pauses. -/
def Phase.slack : Phase → K
  | pause => 10000
  | listening _ => 0

/-- Every announced entry outlives the next round of announcements. -/
structure Fresh (gMS : MediaServerPP) (s : Clocked K) : Prop where
  now_le : s.now ≤ s.wake
  wake_le : s.wake ≤ s.now + 180000
  outlives : ∀ t ∈ announced gMS, ∃ e, s.expiry (usn gMS.udnString t) = some e ∧
    s.wake + s.phase.slack < e

theorem fresh_start (gMS : MediaServerPP) : Fresh gMS (start gMS : Clocked K) where
  now_le := by
    dsimp only [start]
    norm_num
  wake_le := by
    dsimp only [start]
    norm_num
  outlives t ht := by
    dsimp only [start, Phase.slack]
    rw [deliver_sendAlive _ _ ht]
    exact ⟨_, rfl, by norm_num⟩

theorem fresh_step {s s' : Clocked K} (hstep : Step gMS s s') (h : Fresh gMS s) :
    Fresh gMS s' := by
  obtain ⟨hnow, hwake, hout⟩ := h
  cases hstep with
  | elapse d hd hle =>
    refine ⟨hle, ?_, hout⟩
    dsimp only
    linarith
  | listen hphase heq =>
    refine ⟨?_, ?_, fun t ht => ?_⟩
    · dsimp only
      linarith
    · dsimp only
      linarith
    · -- The first sleep is what the pause kept in reserve.
      obtain ⟨e, he, hlt⟩ := hout t ht
      rw [hphase] at hlt
      dsimp only [Phase.slack] at hlt ⊢
      exact ⟨e, he, by linarith⟩
  | alive delay hphase heq =>
    obtain ⟨hpos, hle⟩ := nextDelay_bounds (K := K) delay
    refine ⟨?_, ?_, fun t ht => ?_⟩
    · dsimp only
      linarith
    · dsimp only
      linarith
    · dsimp only [Phase.slack]
      rw [deliver_sendAlive _ _ ht]
      refine ⟨_, rfl, ?_⟩
      push_cast
      linarith
  | reply delay hphase time host port t ht =>
    refine ⟨hnow, hwake, fun t' ht' => ?_⟩
    dsimp only
    rw [deliver_reply _ _ ht]
    split
    · -- A lifetime that was cut short is still longer than any sleep.
      refine ⟨_, rfl, ?_⟩
      rw [hphase]
      dsimp only [Phase.slack]
      push_cast
      linarith
    · exact hout t' ht'

/-- In every state of every run, each announced USN is in the cache and not yet
expired. -/
theorem never_expires (K : Type) [Field K] [LinearOrder K] [IsStrictOrderedRing K]
    (gMS : MediaServerPP) (s : Clocked K)
    (h : Relation.ReflTransGen (Step gMS) (start gMS) s) :
    ∀ t ∈ announced gMS, ∃ e, s.expiry (usn gMS.udnString t) = some e ∧ s.now < e := by
  have hfresh : Fresh gMS s := by
    induction h with
    | refl => exact fresh_start gMS
    | tail _ hstep ih => exact fresh_step hstep ih
  intro t ht
  obtain ⟨e, he, hlt⟩ := hfresh.outlives t ht
  have hslack : (0 : K) ≤ s.phase.slack := by
    cases s.phase
    · show (0 : K) ≤ 10000
      norm_num
    · exact le_refl (0 : K)
  have hnow := hfresh.now_le
  exact ⟨e, he, by linarith⟩

/-- The run that pauses, listens and replies to a search for the root device. -/
theorem never_expires_reply :
    ∃ s : Clocked Rat, s.now = 0 + 250 ∧ ∀ t ∈ announced .new,
      ∃ e, s.expiry (usn MediaServerPP.new.udnString t) = some e ∧ s.now < e := by
  have h₁ : Relation.ReflTransGen (Step .new) (start .new : Clocked Rat) _ :=
    .single (.elapse _ 250 (by norm_num) (by dsimp only [start]; norm_num))
  have h₂ := h₁.tail (Step.listen _ rfl (by dsimp only [start]; norm_num))
  have h₃ := h₂.tail (Step.reply _ 10000 rfl ⟨0⟩ "10.0.0.1".toList 1900 rootDevice
    (by simp [announced]))
  exact ⟨_, rfl, never_expires Rat .new _ h₃⟩

end Expiry

end Upnp
end MediaServer
