import TieredStore.Proofs.Store.Looking

/-!
# Looking again

Whoever looks at an entry again and again until there is an answer gets what waiting would
have given, by induction over the looks.  Time may have passed further than it would have for
somebody who waits.
-/

namespace TieredStore
namespace Entry

variable {content : Contents} {store : Store FlakyTier} {entry : Entry}
  {ticket waiter deadline : Nat} {segment : SegmentId}

/-- Looks at an entry, and again after each pause, until there is an answer. -/
def poll {τ : Type} [Tier τ] (entry : Entry) (store : Store τ) :
    List (Option Nat) → Option (Reply τ Bytes)
  | [] => (entry.tryContent store).answer?
  | pause :: rest =>
      let reply := entry.tryContent store
      match reply.answer? with
      | some found => some found
      | none => reply.entry.poll (reply.store.pause pause) rest

/-! ## Many looks -/

theorem poll_of_answer {found : Reply FlakyTier Bytes}
    (h : (entry.tryContent store).answer? = some found) (pauses : List (Option Nat)) :
    entry.poll store pauses = some found := by
  cases pauses with
  | nil => exact h
  | cons pause rest =>
      rw [poll]
      simp only [h]

theorem poll_of_none (h : (entry.tryContent store).answer? = none) (pause : Option Nat)
    (rest : List (Option Nat)) :
    entry.poll store (pause :: rest) =
      (entry.tryContent store).entry.poll ((entry.tryContent store).store.pause pause) rest := by
  rw [poll]
  simp only [h]

/-- The first answer is what waiting would have given. -/
theorem poll_agrees (pauses : List (Option Nat)) :
    ∀ {entry : Entry} {store : Store FlakyTier} {reply : Reply FlakyTier Bytes},
      store.Sound content → entry.poll store pauses = some reply →
      reply.Agrees (entry.Alone store) (entry.awaitContent store) := by
  induction pauses with
  | nil =>
      intro entry store reply h hpoll
      cases tryContent_foretells h entry with
      | answered hfound hagrees =>
          rw [poll_of_answer hfound] at hpoll
          cases hpoll
          exact hagrees
      | unanswered hnone _ _ =>
          replace hpoll : (entry.tryContent store).answer? = some reply := hpoll
          rw [hnone] at hpoll
          cases hpoll
  | cons pause rest ih =>
      intro entry store reply h hpoll
      cases tryContent_foretells h entry with
      | answered hfound hagrees =>
          rw [poll_of_answer hfound] at hpoll
          cases hpoll
          exact hagrees
      | unanswered hnone hlater halone =>
          rw [poll_of_none hnone] at hpoll
          have hlooked := (h.tryContent entry).sound.pause pause
          exact ((ih hlooked hpoll).mono (halone pause)).trans (hlater pause)

/-! ## Looking comes to an end -/

def total : List (Option Nat) → Nat
  | [] => 0
  | pause :: rest => pause.getD 0 + total rest

theorem poll_isSome (h : (entry.tryContent store).answer?.isSome) (pauses : List (Option Nat)) :
    (entry.poll store pauses).isSome := by
  rcases Option.isSome_iff_exists.mp h with ⟨found, hfound⟩
  rw [poll_of_answer hfound, Option.isSome_some]

theorem answer?_of_idle (hwait : entry.wait = some (.fetch ticket))
    (hqueue : store.fetches.queue = []) : (entry.tryContent store).answer?.isSome := by
  have hgone : store.fetches.expects ticket = false := by
    unfold Fetches.expects
    rw [hqueue]
    rfl
  rw [tryFetch_eq hwait]
  cases store.fetches.arrived.get? ticket with
  | some result => rw [Reply.answer?_found, Option.isSome_some]
  | none =>
      simp only [hgone, Bool.false_eq_true, if_false]
      rw [Reply.answer?_found, Option.isSome_some]

theorem tryFetch_of_none (hwait : entry.wait = some (.fetch ticket))
    (hnone : (entry.tryContent store).answer? = none) :
    (entry.tryContent store).entry = entry ∧ (entry.tryContent store).store = store := by
  rw [tryFetch_eq hwait] at hnone ⊢
  cases harrived : store.fetches.arrived.get? ticket with
  | some result =>
      rw [harrived, Reply.answer?_found] at hnone
      cases hnone
  | none =>
      rw [harrived] at hnone
      by_cases hqueued : store.fetches.expects ticket = true
      · simp only [if_pos hqueued]
        exact ⟨trivial, trivial⟩
      · simp only [if_neg hqueued, Reply.answer?_found] at hnone
        cases hnone

theorem poll_fetch_ends (hwait : entry.wait = some (.fetch ticket)) (rest : List (Option Nat)) :
    ∀ {store : Store FlakyTier} {pause : Option Nat},
      (∃ milliseconds, some milliseconds ∈ pause :: rest) →
      (entry.poll (store.pause pause) rest).isSome := by
  induction rest with
  | nil =>
      rintro store pause ⟨milliseconds, hmem⟩
      rw [← List.mem_singleton.mp hmem]
      exact poll_isSome (answer?_of_idle hwait (store.advance_queue milliseconds)) []
  | cons next rest ih =>
      rintro store pause hruns
      cases pause with
      | some milliseconds =>
          exact poll_isSome (answer?_of_idle hwait (store.advance_queue milliseconds)) _
      | none =>
          rcases hruns with ⟨milliseconds, hmem⟩
          have hrest : some milliseconds ∈ next :: rest :=
            (List.mem_cons.mp hmem).resolve_left nofun
          show (entry.poll store (next :: rest)).isSome
          cases hanswer : (entry.tryContent store).answer? with
          | some found => exact poll_isSome (by rw [hanswer, Option.isSome_some]) _
          | none =>
              -- the look has changed nothing, and the reads are carried out at a later pause
              rcases tryFetch_of_none hwait hanswer with ⟨hentry, hstore⟩
              rw [poll_of_none hanswer, hentry, hstore]
              exact ih ⟨milliseconds, hrest⟩

theorem tryWoken_of_none {wakeup : Wakeup}
    (hnone : (entry.tryWoken segment wakeup store).answer? = none) :
    ∃ ticket, (entry.tryWoken segment wakeup store).entry.wait = some (.fetch ticket) := by
  rcases entry.tryWoken_cases segment wakeup store with ⟨e, -, heq⟩ | ⟨length, -,
    ⟨e, container, -, heq⟩ | ⟨data, container, -, heq⟩ | ⟨request, container, -, heq⟩⟩
  · rw [heq, Reply.answer?_found] at hnone
    cases hnone
  · rw [heq, Reply.answer?_found] at hnone
    cases hnone
  · rw [heq, Reply.answer?_found] at hnone
    cases hnone
  · rw [heq]
    exact ⟨_, rfl⟩

/-- Whoever has no message gives up when the deadline is over. -/
theorem poll_late (hwait : entry.wait = some (.wakeup waiter segment deadline))
    (pauses : List (Option Nat)) :
    ∀ {store : Store FlakyTier}, store.waiters.look waiter = .none →
      deadline ≤ store.now + total pauses → (entry.poll store pauses).isSome := by
  have htries : ∀ {store : Store FlakyTier}, store.waiters.look waiter = .none →
      entry.tryContent store =
        if deadline ≤ store.now then
          (entry.settled (.error (.timedOut segment entry.offset))
            { store with waiters := store.waiters.deregister waiter }).found
        else { result := .ok none, entry, store } := by
    intro store hlook
    rw [tryContent_of_wakeup hwait, tryWakeup_of_none hlook]
  have hnow : ∀ {store : Store FlakyTier}, store.waiters.look waiter = .none →
      deadline ≤ store.now → ∀ pauses, (entry.poll store pauses).isSome := by
    intro store hlook hlate pauses
    refine poll_isSome ?_ pauses
    rw [htries hlook, if_pos hlate, Reply.answer?_found, Option.isSome_some]
  induction pauses with
  | nil => exact fun hlook htime => hnow hlook htime []
  | cons pause rest ih =>
      intro store hlook htime
      by_cases hlate : deadline ≤ store.now
      · exact hnow hlook hlate _
      · have hsame : entry.tryContent store = { result := .ok none, entry, store } := by
          rw [htries hlook, if_neg hlate]
        rw [poll_of_none (by rw [hsame]; rfl), hsame]
        refine ih ?_ ?_
        · rw [store.pause_waiters]
          exact hlook
        · rw [store.pause_now, Nat.add_assoc]
          exact htime

/--
Looking comes to an end when the reads of the tier have been carried out once and, if the
entry waits for an append, its deadline is over.
-/
theorem poll_ends (entry : Entry) (store : Store FlakyTier) {pauses : List (Option Nat)}
    (hruns : ∃ milliseconds, some milliseconds ∈ pauses)
    (htime : ∀ waiter segment deadline, entry.wait = some (.wakeup waiter segment deadline) →
      deadline ≤ store.now + total pauses) : (entry.poll store pauses).isSome := by
  rcases hruns with ⟨milliseconds, hmem⟩
  obtain ⟨pause, rest, rfl⟩ : ∃ pause rest, pauses = pause :: rest :=
    List.exists_cons_of_ne_nil (List.ne_nil_of_mem hmem)
  cases hanswer : (entry.tryContent store).answer? with
  | some found => exact poll_isSome (by rw [hanswer, Option.isSome_some]) _
  | none =>
      cases hwait : entry.wait with
      | none =>
          rw [tryContent_of_none hwait, Reply.answer?_found] at hanswer
          cases hanswer
      | some wait =>
          cases wait with
          | fetch ticket =>
              rcases tryFetch_of_none hwait hanswer with ⟨hentry, hstore⟩
              rw [poll_of_none hanswer, hentry, hstore]
              exact poll_fetch_ends hwait rest ⟨milliseconds, hmem⟩
          | wakeup waiter segment deadline =>
              have htries := tryContent_of_wakeup hwait store
              cases hlook : store.waiters.look waiter with
              | none => exact poll_late hwait _ hlook (htime waiter segment deadline hwait)
              | never =>
                  rw [tryWakeup_of_never hlook] at htries
                  rw [htries, Reply.answer?_found] at hanswer
                  cases hanswer
              | message wakeup =>
                  -- the look has asked the tier for the bytes that the message is about
                  rw [tryWakeup_of_message hlook] at htries
                  rw [poll_of_none hanswer, htries]
                  rw [htries] at hanswer
                  rcases tryWoken_of_none hanswer with ⟨ticket, hfetch⟩
                  exact poll_fetch_ends hfetch rest ⟨milliseconds, hmem⟩

/-! ## After the answer -/

/-- What is told once an answer was given: the bytes again, or that the failure was reported. -/
def again : Except Error Bytes → Except Error Bytes
  | .ok data => .ok data
  | .error _ => .error (.misuse .failureReported)

/-- Whoever waits or looks, and whenever, is told this, and nothing changes. -/
def Repeats (entry : Entry) (result : Except Error Bytes) : Prop :=
  ∀ store : Store FlakyTier,
    entry.awaitContent store = { result, entry, store } ∧
      entry.tryContent store = { result := result.map some, entry, store }

theorem repeats_of_current {result : Except Error Bytes} (hwait : entry.wait = none)
    (hcurrent : entry.current = (result, entry)) : entry.Repeats result := by
  intro store
  unfold awaitContent tryContent
  rw [hwait]
  simp only [hcurrent]
  exact ⟨trivial, trivial⟩

theorem current_repeats (hwait : entry.wait = none) :
    entry.current.2.Repeats (again entry.current.1) := by
  cases hcontent : entry.content with
  | some data =>
      have hcurrent : entry.current = (.ok data, entry) := by
        unfold current
        rw [hcontent]
      rw [hcurrent]
      exact repeats_of_current hwait hcurrent
  | none =>
      cases hfailure : entry.failure with
      | some e =>
          have hcurrent : entry.current = (.error e, { entry with failure := none }) := by
            unfold current
            rw [hcontent, hfailure]
          rw [hcurrent]
          refine repeats_of_current hwait ?_
          unfold current
          simp only [hcontent]
          rfl
      | none =>
          have hcurrent : entry.current = (.error (.misuse .failureReported), entry) := by
            unfold current
            rw [hcontent, hfailure]
          rw [hcurrent]
          exact repeats_of_current hwait hcurrent

theorem settled_repeats (entry : Entry) (result : Except Error Bytes) (store : Store FlakyTier) :
    (entry.settled result store).entry.Repeats (again (entry.settled result store).result) := by
  have hwait : (entry.complete result store).1.wait = none := by
    cases result with
    | ok data => rfl
    | error e => rfl
  exact current_repeats hwait

theorem awaitContent_repeats (entry : Entry) (store : Store FlakyTier) :
    (entry.awaitContent store).entry.Repeats (again (entry.awaitContent store).result) := by
  cases hwait : entry.wait with
  | none =>
      unfold awaitContent
      rw [hwait]
      exact current_repeats hwait
  | some wait =>
      cases wait with
      | fetch ticket =>
          rw [awaitContent_of_fetch hwait, awaitFetch_eq]
          exact settled_repeats _ _ _
      | wakeup waiter segment deadline =>
          rw [awaitContent_of_wakeup hwait]
          cases hlook : store.waiters.look waiter with
          | message wakeup =>
              rw [awaitWakeup_of_message hlook]
              unfold awaitWoken
              split
              · exact settled_repeats _ _ _
              · exact settled_repeats _ _ _
          | never =>
              rw [awaitWakeup_of_never hlook]
              exact settled_repeats _ _ _
          | none =>
              rw [awaitWakeup_of_none hlook]
              exact settled_repeats _ _ _

theorem awaitWoken_waiters (entry : Entry) (segment : SegmentId) (wakeup : Wakeup)
    (store : Store FlakyTier) :
    (entry.awaitWoken segment wakeup store).store.waiters = store.waiters := by
  unfold awaitWoken
  split
  · rw [settled_store]
  · simp only
    rw [settled_store]
    unfold calling
    split
    · rfl
    · rfl

theorem awaitContent_deregisters (hproper : store.waiters.Proper)
    (hwaiter : entry.waiter? = some waiter) :
    ∀ r ∈ (entry.awaitContent store).store.waiters.waiting, r.id ≠ waiter := by
  rcases wait_of_waiter? hwaiter with ⟨segment, deadline, hwait⟩
  rw [awaitContent_of_wakeup hwait]
  rcases store.waiters.look_cases waiter with
    ⟨wakeup, hmessage, hlook⟩ | ⟨-, ⟨-, hlook⟩ | ⟨hgone, hlook⟩⟩
  · rw [awaitWakeup_of_message hlook, awaitWoken_waiters]
    exact hproper.gone_of_message hmessage
  · rw [awaitWakeup_of_none hlook, settled_store]
    exact fun r hr => of_decide_eq_true (List.mem_filter.mp hr).2
  · rw [awaitWakeup_of_never hlook, settled_store]
    exact hgone

end Entry

namespace ReaderRun

open Entry (again)

/--
Take any store that a run can reach and any entry, whatever it waits for.  Whoever looks at
the entry until there is an answer, and however he pauses in between, gets the answer that
waiting gives, and the entry, the statuses, those who wait, the segments and the objects are
then the same; so is the cache if no other read of the tier is on its way.  Looking comes to
an end once reads of the tier have been carried out and the deadline, if there is one, is
over.  After either answer nobody waits for the entry, the bytes can be had again at any
time, and a failure is not reported a second time.
-/
theorem waiting_and_looking_agree (list : List ReaderStep) {store : Store FlakyTier}
    (hopen : (start.steps list).run.session = .opened store) (entry : Entry) :
    (∀ pauses reply, entry.poll store pauses = some reply →
      reply.Agrees (entry.Alone store) (entry.awaitContent store)) ∧
    (∀ pauses, (∃ milliseconds, some milliseconds ∈ pauses) →
      (∀ waiter segment deadline, entry.wait = some (.wakeup waiter segment deadline) →
        deadline ≤ store.now + Entry.total pauses) → (entry.poll store pauses).isSome) ∧
    ∀ reply, reply = entry.awaitContent store ∨ (∃ pauses, entry.poll store pauses = some reply) →
      (∀ waiter, entry.waiter? = some waiter →
        ∀ r ∈ reply.store.waiters.waiting, r.id ≠ waiter) ∧
      reply.entry.Repeats (again reply.result) := by
  have hupheld := upheld_steps list
  have hsound := (StoreRun.Kept.opened hupheld.kept hopen).sound
  have hproper := (hupheld.holding hopen).expecting.proper
  have hagrees : ∀ pauses reply, entry.poll store pauses = some reply →
      reply.Agrees (entry.Alone store) (entry.awaitContent store) := fun pauses _ hpoll =>
    Entry.poll_agrees pauses hsound hpoll
  refine ⟨hagrees, fun _ hruns htime => entry.poll_ends store hruns htime, ?_⟩
  rintro reply (rfl | ⟨pauses, hpoll⟩)
  · exact ⟨fun _ hwaiter => Entry.awaitContent_deregisters hproper hwaiter,
      entry.awaitContent_repeats store⟩
  · have hreply := hagrees pauses reply hpoll
    rw [hreply.store.waiters_eq, hreply.entry_eq, hreply.result_eq]
    exact ⟨fun _ hwaiter => Entry.awaitContent_deregisters hproper hwaiter,
      entry.awaitContent_repeats store⟩

/-- A read waits for the first byte of a segment, which comes and goes to the tier. -/
private def flushed : List ReaderStep :=
  [.step (.reopen { cacheMaxSize := 0 }), .step (.create "a"), .read 1 0 4,
    .step (.next { segment := 1, start := 0, maxLength := 4, finished := false }),
    .step (.append ⟨1, 7, 1, [97, 98]⟩), .step .flush]

private def woken : Entry :=
  { number := 0, kind := .future, offset := 0, requested := 4, wait := some (.wakeup 0 1 30000) }

/-- The first look asks the tier for the bytes, and the second has them. -/
theorem waiting_and_looking_agree_flushed :
    ∃ store reply, (start.steps flushed).run.session = .opened store ∧
      woken ∈ (start.steps flushed).entries ∧ (woken.tryContent store).answer? = none ∧
      woken.poll store [some 0] = some reply ∧ reply.result = .ok [97, 98] ∧
      (woken.awaitContent store).result = .ok [97, 98] ∧
      reply.store.container = (woken.awaitContent store).store.container := by
  have hisSome : (start.steps flushed).run.session.store?.isSome = true := by decide +kernel
  have hheld : woken ∈ (start.steps flushed).entries := by decide +kernel
  have hidle : (start.steps flushed).run.session.store?.map
      (fun store => (store.fetches.queue, store.orphans)) = some ([], []) := by decide +kernel
  have hlooked : (start.steps flushed).run.session.store?.map
      (fun store => (woken.tryContent store).answer?.isNone) = some true := by decide +kernel
  have hpolled : ((start.steps flushed).run.session.store?.bind
      (fun store => woken.poll store [some 0])).bind (·.result.toOption) = some [97, 98] := by
    decide +kernel
  rcases Option.isSome_iff_exists.mp hisSome with ⟨store, hstore⟩
  have hopen := Session.eq_opened hstore
  rw [hstore] at hidle hlooked hpolled
  replace hidle : (store.fetches.queue, store.orphans) = ([], []) := Option.some.inj hidle
  replace hlooked : (woken.tryContent store).answer?.isNone = true := Option.some.inj hlooked
  replace hpolled : (woken.poll store [some 0]).bind (·.result.toOption) = some [97, 98] := hpolled
  rcases Option.bind_eq_some_iff.mp hpolled with ⟨reply, hreply, hresult⟩
  have hanswer := ok_of_toOption hresult
  rcases waiting_and_looking_agree flushed hopen woken with ⟨hagrees, -, -⟩
  have hsame := hagrees [some 0] reply hreply
  have halone : woken.Alone store := by
    refine ⟨congrArg Prod.snd hidle, ?_⟩
    rw [show store.fetches.queue = [] from congrArg Prod.fst hidle]
    exact fun _ hfetch => nomatch hfetch
  exact ⟨store, reply, hopen, hheld, Option.isNone_iff_eq_none.mp hlooked, hreply, hanswer,
    hsame.result_eq.symm.trans hanswer, hsame.store.container_eq halone⟩

end ReaderRun
end TieredStore
