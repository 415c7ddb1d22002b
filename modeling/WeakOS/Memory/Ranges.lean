import Mathlib
import WeakOS.Memory.Preinit
import WeakOS.Memory.Session

namespace WeakOS

open Foundation

/-!
# Virtual ranges are handed out exclusively

Whatever sequence of calls is made on a well-formed region table, the table
stays well formed, the disabled regions stay as they are, and every range that
is handed out lay in one free region.
-/

namespace Session

/-- A session keeps the table arranged and the disabled regions of the table it
began with. -/
structure Kept (initial : Memory) (session : Session) : Prop
    extends session.Tracked (· = ·) memPageCount where
  undisturbed : initial.Undisturbed session.memory

theorem Kept.step {initial : Memory} {session next : Session} {event : Event}
    (kept : session.Kept initial) (positive : event.Positive)
    (taken : session.step event = some next) : next.Kept initial := by
  have within : memPageCount ≤ memPageCount + 1 := Nat.le_succ _
  have bounded := kept.bounded Memory.Ordering.eq within
  refine ⟨kept.toTracked.step Memory.Ordering.eq within positive taken, ?_⟩
  refine kept.undisturbed.trans ?_
  cases event with
  | allocVirtual pages =>
      rcases Option.map_eq_some_iff.mp taken with ⟨⟨after, ptr⟩, result, rfl⟩
      exact bounded.allocVirtual_undisturbed result
  | freeVirtual ptr =>
      rcases Option.map_eq_some_iff.mp taken with ⟨⟨after, freed⟩, result, rfl⟩
      exact bounded.freeVirtual_undisturbed result
  | access page =>
      rw [← Option.some.inj taken]
      exact Memory.Undisturbed.of_sameRegions (Memory.access_sameRegions session.memory page)

/-- Every run on a well-formed table can be taken to its end and keeps it. -/
theorem run_kept {memory : Memory} (wellFormed : memory.WellFormed) {events : List Event}
    (positive : ∀ event ∈ events, event.Positive) :
    ∃ session, Session.run ⟨memory, []⟩ events = some session ∧ session.Kept memory := by
  rcases wellFormed.arranged with ⟨slots, arranged⟩
  refine Run.run_total (fun state event kept admissible => ?_)
    ⟨Tracked.start arranged, Memory.Undisturbed.refl memory⟩ positive
  rcases kept.toTracked.progress admissible with ⟨next, taken⟩
  exact ⟨next, taken, kept.step admissible taken⟩

/-- `preinit` makes a well-formed table, and every run of calls on any
well-formed table ends in one.  It leaves the disabled regions alone, and what
`alloc_virtual` returns there is part of one free region, apart from the live
allocations and from the disabled pages. -/
theorem run_hands_out_free_ranges :
    (∀ memory rgns, (Memory.preinit memory rgns).WellFormed) ∧
      ∀ memory : Memory, memory.WellFormed →
        ∀ events : List Event, (∀ event ∈ events, event.Positive) →
          ∃ session, Session.run ⟨memory, []⟩ events = some session ∧
            session.memory.WellFormed ∧
            memory.Undisturbed session.memory ∧
            session.live.Pairwise Allocation.Apart ∧
            ∀ pages after ptr, 1 ≤ pages →
              session.memory.allocVirtual pages = some (after, ptr) → ptr ≠ 0 →
                ∃ slot, (session.memory.mRgns slot).type = .free ∧
                  (∀ page, Allocation.Contains ⟨ptr, pages⟩ page →
                    session.memory.mRgns.Contains slot page ∧
                      ¬ session.memory.mRgns.HasType page .disabled) ∧
                  ∀ item ∈ session.live, Allocation.Apart ⟨ptr, pages⟩ item := by
  refine ⟨Memory.preinit_wellFormed, fun memory wellFormed events positive => ?_⟩
  rcases run_kept wellFormed positive with ⟨session, reached, kept⟩
  rcases kept.table with ⟨slots, arranged⟩
  refine ⟨session, reached, arranged.wellFormed, kept.undisturbed, kept.apart, ?_⟩
  intro pages after ptr asked result returned
  rcases kept.toTracked.returned Memory.Ordering.eq (Nat.le_succ _) asked result returned with
    ⟨slot, isFree, inside, exclusive⟩
  refine ⟨slot, isFree, fun page contains => ⟨inside page contains, ?_⟩, exclusive⟩
  exact arranged.not_hasType_of_free Memory.Ordering.eq isFree (inside page contains)
    MemVirtRgnType.noConfusion MemVirtRgnType.noConfusion

/-- Sixteen pages of RAM and two allocations; the next one is handed out behind them. -/
theorem run_hands_out_free_ranges_preinit : ∃ session after,
    Session.run ⟨Memory.zero.preinit [⟨0, 0x10000, .usable⟩], []⟩ [.allocVirtual 2, .allocVirtual 3] =
        some session ∧
      session.memory.WellFormed ∧ session.live = [⟨0x2000, 3⟩] ∧
      session.memory.allocVirtual 4 = some (after, 0x5000) ∧
      (∀ page, Allocation.Contains ⟨0x5000, 4⟩ page → ¬ session.memory.mRgns.HasType page .disabled) ∧
      Allocation.Apart ⟨0x5000, 4⟩ ⟨0x2000, 3⟩ := by
  rcases run_hands_out_free_ranges.2 (Memory.zero.preinit [⟨0, 0x10000, .usable⟩])
    (run_hands_out_free_ranges.1 _ _) [.allocVirtual 2, .allocVirtual 3] (by simp [Event.Positive]) with
    ⟨session, reached, wellFormed, _, _, hands⟩
  have evaluated : (Session.run ⟨Memory.zero.preinit [⟨0, 0x10000, .usable⟩], []⟩
      [.allocVirtual 2, .allocVirtual 3]).map (fun session =>
        (session.live, (session.memory.allocVirtual 4).map Prod.snd)) =
      some ([⟨0x2000, 3⟩], some 0x5000) := by decide +kernel
  rw [reached, Option.map_some, Option.some.injEq, Prod.mk.injEq] at evaluated
  rcases Option.map_eq_some_iff.mp evaluated.2 with ⟨⟨after, ptr⟩, result, rfl⟩
  rcases hands 4 after 0x5000 (by decide) result (by decide) with ⟨slot, _, inside, apart⟩
  exact ⟨session, after, reached, wellFormed, evaluated.1, result, fun page contains => (inside page contains).2,
    apart _ (evaluated.1 ▸ List.mem_singleton_self _)⟩

end Session

end WeakOS
