/-
# The forwarding of queries by dnsd

`Server::interactive` handles one query after the other.  A query that no zone answers is sent to
the foreign server on a connected socket, and the next datagram that this socket yields is sent
to the client.  The network may delay, reorder, duplicate and lose the replies of the foreign
server, so the datagrams in flight carry the number of the query that they reply to.

* `Datagram`, `Loop`, `Event` : the replies in flight, the loop, and what may happen;
* `interactive` : the machine;
* `Moment.Paired` : a client gets the reply to its own query;
* `QuietForward` : nothing is in flight when a query is sent on;
* `forward_paired` : runs in which this is so whenever it matters;
* `stale_reply` : what may happen when it is not.
-/
import IntroNP.DnsNameError
import IntroNP.Runs

namespace Dnsd

/-! ## The machine -/

/-- A datagram from the foreign server, and the number of the query that it replies to. -/
structure Datagram where
  query : ℕ
  data : Bytes
  deriving DecidableEq

/-- The state of the loop and of what is upstream of it. -/
structure Loop (Addr : Type) where
  /-- The queries that have been sent on, by number. -/
  asked : List Bytes
  /-- The client and the number of the query for which `forward` waits in `recv`. -/
  waiting : Option (Addr × ℕ)
  /-- The queries that the foreign server has not replied to. -/
  unanswered : List ℕ
  /-- The replies on their way to the socket. -/
  inflight : List Datagram
  deriving DecidableEq

/-- What happens next; a number chooses one of the datagrams in flight. -/
inductive Event (Addr : Type)
  /-- A client's query is received. -/
  | query (client : Addr) (qs : Bytes)
  /-- The foreign server replies to a query. -/
  | respond (k : ℕ)
  | duplicate (i : ℕ)
  | lose (i : ℕ)
  /-- A datagram is received from the foreign server. -/
  | recv (i : ℕ)
  deriving DecidableEq

/-- What is sent to a client. -/
inductive Sent (Addr : Type)
  | nothing
  /-- The server's own reply. -/
  | own (client : Addr) (data : Bytes)
  /-- What `forward` has received for query `k`. -/
  | forwarded (client : Addr) (k : ℕ) (reply : Datagram)
  deriving DecidableEq

/-- A step of a run. -/
abbrev Turn (Addr : Type) := Moment (Loop Addr) (Event Addr) (Sent Addr)

/-- The bytes of a datagram that fit the buffer of a receive call. -/
def received (data : Bytes) : Bytes := data.take 2048

section machine

variable {Addr : Type} (config : Config) (foreign : Bytes → Bytes)

/-- One step of `Server::interactive`; `foreign` is what the foreign server replies to a query. -/
def Loop.next (s : Loop Addr) : Event Addr → Option (Loop Addr × Sent Addr)
  | .query client qs =>
      match s.waiting, Dnsd.query config (received qs) with
      | none, some (.answer _ data) => some (s, .own client data)
      | none, some .forward => some ({ s with
          asked := s.asked ++ [received qs]
          waiting := some (client, s.asked.length)
          unanswered := s.unanswered ++ [s.asked.length] }, .nothing)
      -- a query that is not well formed, or one that waits in the socket
      | _, _ => none
  | .respond k =>
      match s.asked[k]? with
      | some qs =>
          if k ∈ s.unanswered then
            some ({ s with
              unanswered := s.unanswered.erase k
              inflight := s.inflight ++ [⟨k, foreign qs⟩] }, .nothing)
          else none
      | none => none
  | .duplicate i => s.inflight[i]?.map fun d =>
      ({ s with inflight := s.inflight ++ [d] }, .nothing)
  | .lose i => s.inflight[i]?.map fun _ =>
      ({ s with inflight := s.inflight.eraseIdx i }, .nothing)
  | .recv i =>
      match s.waiting, s.inflight[i]? with
      | some (client, k), some d => some ({ s with
          waiting := none
          inflight := s.inflight.eraseIdx i }, .forwarded client k ⟨d.query, received d.data⟩)
      | _, _ => none

/-- `Server::interactive`. -/
def interactive : Machine (Loop Addr) (Event Addr) (Sent Addr) where
  init := ⟨[], none, [], []⟩
  next := Loop.next config foreign

end machine

/-! ## Pairs of queries and replies -/

variable {Addr : Type} {config : Config} {foreign : Bytes → Bytes}

/-- The ID of a message. -/
def messageID (data : Bytes) : Bytes := data.take 2

/-- What a client gets for a query that has been sent on replies to that query: the foreign server
has made it from the query, and it has the ID of the query. -/
def Paired (foreign : Bytes → Bytes) (m : Turn Addr) : Prop :=
  ∀ client k d, m.shown = .forwarded client k d → d.query = k ∧
    ∃ qs, m.pre.asked[k]? = some qs ∧ d.data = received (foreign qs) ∧ messageID d.data = messageID qs

/-- No reply is in flight when a query is sent on. -/
def QuietForward (config : Config) (s : Loop Addr) (e : Event Addr) : Prop :=
  ∀ client qs, e = .query client qs → Dnsd.query config (received qs) = some .forward →
    s.inflight = []

/-- The replies of the foreign server are what it makes of the queries. -/
def Loop.Genuine (foreign : Bytes → Bytes) (s : Loop Addr) : Prop :=
  ∀ d ∈ s.inflight, ∃ qs, s.asked[d.query]? = some qs ∧ d.data = foreign qs

/-- Every query but the one that waits has its reply. -/
def Loop.InStep (s : Loop Addr) : Prop :=
  match s.waiting with
  | none => s.unanswered = []
  | some (_, k) => (s.unanswered = [k] ∧ s.inflight = []) ∨
      (s.unanswered = [] ∧ ∀ d ∈ s.inflight, d.query = k)

/-- The steps of the machine. -/
inductive Loop.Step (config : Config) (foreign : Bytes → Bytes) (s : Loop Addr) :
    Event Addr → Loop Addr → Sent Addr → Prop
  | own {client qs header data} (hidle : s.waiting = none)
      (hquery : Dnsd.query config (received qs) = some (.answer header data)) :
      Step config foreign s (.query client qs) s (.own client data)
  | forward {client qs} (hidle : s.waiting = none)
      (hquery : Dnsd.query config (received qs) = some .forward) :
      Step config foreign s (.query client qs) { s with
        asked := s.asked ++ [received qs]
        waiting := some (client, s.asked.length)
        unanswered := s.unanswered ++ [s.asked.length] } .nothing
  | respond {k qs} (hasked : s.asked[k]? = some qs) (hk : k ∈ s.unanswered) :
      Step config foreign s (.respond k) { s with
        unanswered := s.unanswered.erase k
        inflight := s.inflight ++ [⟨k, foreign qs⟩] } .nothing
  | duplicate {i d} (hd : s.inflight[i]? = some d) :
      Step config foreign s (.duplicate i) { s with inflight := s.inflight ++ [d] } .nothing
  | lose {i d} (hd : s.inflight[i]? = some d) :
      Step config foreign s (.lose i) { s with inflight := s.inflight.eraseIdx i } .nothing
  | recv {i d client k} (hwaiting : s.waiting = some (client, k)) (hd : s.inflight[i]? = some d) :
      Step config foreign s (.recv i) { s with
        waiting := none
        inflight := s.inflight.eraseIdx i } (.forwarded client k ⟨d.query, received d.data⟩)

theorem step_of_next {s s' : Loop Addr} {e : Event Addr} {o : Sent Addr}
    (h : s.next config foreign e = some (s', o)) : s.Step config foreign e s' o := by
  cases e with
  | query client qs =>
      dsimp only [Loop.next] at h
      split at h
      · next hidle hquery =>
          cases h
          exact .own hidle hquery
      · next hidle hquery =>
          cases h
          exact .forward hidle hquery
      · cases h
  | respond k =>
      dsimp only [Loop.next] at h
      split at h
      · next qs hasked =>
          split_ifs at h with hk
          cases h
          exact .respond hasked hk
      · cases h
  | duplicate i =>
      obtain ⟨d, hd, heq⟩ := Option.map_eq_some_iff.mp h
      cases heq
      exact .duplicate hd
  | lose i =>
      obtain ⟨d, hd, heq⟩ := Option.map_eq_some_iff.mp h
      cases heq
      exact .lose hd
  | recv i =>
      dsimp only [Loop.next] at h
      split at h
      · next client k d hwaiting hd =>
          cases h
          exact .recv hwaiting hd
      · cases h

/-- What a step leaves upstream are datagrams that were there, or the reply to a query. -/
theorem genuine_step {s s' : Loop Addr} {e : Event Addr} {o : Sent Addr} (h : s.Genuine foreign)
    (hstep : s.Step config foreign e s' o) : s'.Genuine foreign := by
  have herase : ∀ i, ∀ d ∈ s.inflight.eraseIdx i, d ∈ s.inflight := fun i =>
    (List.eraseIdx_sublist _ _).subset
  cases hstep with
  | own => exact h
  | forward =>
      intro d hd
      obtain ⟨qs, hqs, hdata⟩ := h d hd
      have hlt := (List.getElem?_eq_some_iff.mp hqs).1
      exact ⟨qs, (List.getElem?_append_left hlt).trans hqs, hdata⟩
  | @respond k qs hasked _ =>
      intro d hd
      rcases List.mem_append.mp hd with hd | hd
      · exact h d hd
      · obtain rfl := List.mem_singleton.mp hd
        exact ⟨qs, hasked, rfl⟩
  | @duplicate i d hd =>
      intro d' hd'
      rcases List.mem_append.mp hd' with hd' | hd'
      · exact h d' hd'
      · obtain rfl := List.mem_singleton.mp hd'
        exact h d' (List.mem_of_getElem? hd)
  | @lose i => exact fun d hd => h d (herase i d hd)
  | @recv i => exact fun d hd => h d (herase i d hd)

/-- In step, a reply in flight means that no query is without one, and that the query that waits
has all that are in flight. -/
theorem Loop.InStep.of_mem {s : Loop Addr} (h : s.InStep) {d : Datagram} (hd : d ∈ s.inflight) :
    s.unanswered = [] ∧
      ∀ client k, s.waiting = some (client, k) → ∀ d ∈ s.inflight, d.query = k := by
  unfold Loop.InStep at h
  split at h
  · next hidle =>
      refine ⟨h, fun client k hwaiting => ?_⟩
      rw [hidle] at hwaiting
      cases hwaiting
  · next client k hwaiting =>
      rcases h with ⟨-, hnone⟩ | ⟨hnone, hall⟩
      · rw [hnone] at hd
        cases hd
      · refine ⟨hnone, fun client' k' hwaiting' => ?_⟩
        rw [hwaiting] at hwaiting'
        cases hwaiting'
        exact hall

theorem Loop.InStep.of_answered {s : Loop Addr} (hnone : s.unanswered = [])
    (hall : ∀ client k, s.waiting = some (client, k) → ∀ d ∈ s.inflight, d.query = k) :
    s.InStep := by
  unfold Loop.InStep
  split
  · exact hnone
  · next client k hwaiting => exact Or.inr ⟨hnone, hall client k hwaiting⟩

/-- A step that sends no query on while replies are in flight keeps queries and replies in step. -/
theorem inStep_step {s s' : Loop Addr} {e : Event Addr} {o : Sent Addr} (h : s.InStep)
    (hquiet : QuietForward config s e) (hstep : s.Step config foreign e s' o) : s'.InStep := by
  cases hstep with
  | own => exact h
  | forward hidle hquery =>
      rw [Loop.InStep, hidle] at h
      refine Or.inl ⟨?_, hquiet _ _ rfl hquery⟩
      show s.unanswered ++ [s.asked.length] = [s.asked.length]
      rw [h, List.nil_append]
  | @respond k qs hasked hk =>
      unfold Loop.InStep at h ⊢
      dsimp only
      split at h
      · rw [h] at hk
        cases hk
      · next client k' _ =>
          rcases h with ⟨hone, hnone⟩ | ⟨hnone, -⟩
          · -- the reply to the query that waits is the only one in flight
            rw [hone] at hk ⊢
            obtain rfl := List.mem_singleton.mp hk
            refine Or.inr ⟨List.erase_cons_head k [], fun d hd => ?_⟩
            rw [hnone, List.nil_append] at hd
            rw [List.mem_singleton.mp hd]
          · rw [hnone] at hk
            cases hk
  | @duplicate i d hd =>
      have hmem := List.mem_of_getElem? hd
      obtain ⟨hnone, hall⟩ := h.of_mem hmem
      refine .of_answered hnone fun client k hwaiting d' hd' => ?_
      rcases List.mem_append.mp hd' with hd' | hd'
      · exact hall client k hwaiting d' hd'
      · rw [List.mem_singleton.mp hd']
        exact hall client k hwaiting d hmem
  | @lose i d hd =>
      obtain ⟨hnone, hall⟩ := h.of_mem (List.mem_of_getElem? hd)
      exact .of_answered hnone fun client k hwaiting d' hd' =>
        hall client k hwaiting d' ((List.eraseIdx_sublist _ _).subset hd')
  | @recv i d client k hwaiting hd => exact (h.of_mem (List.mem_of_getElem? hd)).1

/-- In step, the reply that is received belongs to the query that waits. -/
theorem paired_step (hforeign : ∀ qs, messageID (foreign qs) = messageID qs) {s s' : Loop Addr}
    {e : Event Addr} {o : Sent Addr} (hgenuine : s.Genuine foreign) (h : s.InStep)
    (hstep : s.Step config foreign e s' o) : Paired foreign ⟨s, e, o⟩ := by
  rintro client k d hshown
  cases hstep with
  | own => cases hshown
  | forward => cases hshown
  | respond => cases hshown
  | duplicate => cases hshown
  | lose => cases hshown
  | @recv i d' client' k' hwaiting hd =>
      cases hshown
      have hmem := List.mem_of_getElem? hd
      have hquery : d'.query = k := (h.of_mem hmem).2 client k hwaiting d' hmem
      obtain ⟨qs, hqs, hdata⟩ := hgenuine d' hmem
      rw [hquery] at hqs
      refine ⟨hquery, qs, hqs, congrArg received hdata, ?_⟩
      have htake : messageID (received d'.data) = messageID d'.data := List.take_take
      rw [htake, hdata, hforeign]

/-! ## Runs -/

/-- When a reply is in flight as a query is sent on, the client may get that one. -/
theorem stale_reply {past : List (Turn Addr)} {s : Loop Addr}
    (hrun : (interactive config foreign).Run past s) (hidle : s.waiting = none) {d : Datagram}
    (hd : d ∈ s.inflight) (client : Addr) {qs : Bytes}
    (hquery : Dnsd.query config (received qs) = some .forward) :
    ∃ (past' : List (Turn Addr)) (s' : Loop Addr), (interactive config foreign).Run past' s' ∧
      ∃ m ∈ past', ¬ Paired foreign m := by
  have hinit : Loop.Genuine foreign (⟨[], none, [], []⟩ : Loop Addr) := List.forall_mem_nil _
  have hgenuine : s.Genuine foreign :=
    hrun.always (I := Loop.Genuine foreign) hinit
      fun _ _ _ _ h hnext => genuine_step h (step_of_next hnext)
  obtain ⟨i, hi⟩ := List.getElem?_of_mem hd
  obtain ⟨q, hq, -⟩ := hgenuine d hd
  have hold := (List.getElem?_eq_some_iff.mp hq).1
  have hforward : (interactive config foreign).next s (.query client qs) = some ({ s with
      asked := s.asked ++ [received qs]
      waiting := some (client, s.asked.length)
      unanswered := s.unanswered ++ [s.asked.length] }, .nothing) := by
    simp only [interactive, Loop.next, hidle, hquery]
  have hrecv : (interactive config foreign).next { s with
        asked := s.asked ++ [received qs]
        waiting := some (client, s.asked.length)
        unanswered := s.unanswered ++ [s.asked.length] } (.recv i) = some ({ s with
      asked := s.asked ++ [received qs]
      waiting := none
      unanswered := s.unanswered ++ [s.asked.length]
      inflight := s.inflight.eraseIdx i },
        .forwarded client s.asked.length ⟨d.query, received d.data⟩) := by
    simp only [interactive, Loop.next, hi]
  have hrun' := (hrun.next hforward).next hrecv
  refine ⟨_, _, hrun', _, List.mem_cons_self, fun hpaired => ?_⟩
  -- the query that the reply belongs to is older
  obtain ⟨hsame, -⟩ := hpaired _ _ _ rfl
  dsimp only at hsame
  omega

/-- In a run in which no reply is in flight whenever a query is sent on, every client gets the
reply to its own query. -/
theorem forward_paired (hforeign : ∀ qs, messageID (foreign qs) = messageID qs)
    {past : List (Turn Addr)} {s : Loop Addr}
    (hrun : (interactive config foreign).Run past s)
    (hquiet : ∀ m ∈ past, QuietForward config m.pre m.event) : ∀ m ∈ past, Paired foreign m := by
  have hinit : Loop.Genuine foreign (⟨[], none, [], []⟩ : Loop Addr) := List.forall_mem_nil _
  have hstart : (⟨[], none, [], []⟩ : Loop Addr).InStep := rfl
  refine hrun.moments (I := fun s => s.Genuine foreign ∧ s.InStep) ⟨hinit, hstart⟩ ?_ hquiet
  rintro s e s' o ⟨hgenuine, hinStep⟩ hC hnext
  have hstep := step_of_next hnext
  exact ⟨⟨genuine_step hgenuine hstep, inStep_step hinStep hC hstep⟩,
    paired_step hforeign hgenuine hinStep hstep⟩

/-! ## Two clients -/

/-- The reply of a server that knows no names: the query with the bits QR and RA and RCODE 3. -/
def nameErrorReply : Bytes → Bytes
  | i₁ :: i₂ :: _ :: _ :: s => i₁ :: i₂ :: 0x81 :: 0x83 :: s
  | qs => qs

theorem messageID_nameErrorReply (qs : Bytes) : messageID (nameErrorReply qs) = messageID qs := by
  unfold nameErrorReply
  split <;> rfl

/-- A query about a name outside of the zones. -/
def askForeign (name : String) : Bytes := ask ⟨s2dn (ascii name), TYPE.A, CLAS.IN⟩

/-- A client gets the reply to its query. -/
theorem forward_paired_client : ∃ past s,
    (interactive servedConfig nameErrorReply).Run past s ∧
      past.head?.map Moment.shown
        = some (.forwarded 1 0 ⟨0, nameErrorReply (askForeign "x.b.")⟩) ∧
      ∀ m ∈ past, Paired nameErrorReply m := by
  obtain ⟨past, s, hrun, htest⟩ := Machine.exists_run_of_replay
    (interactive servedConfig nameErrorReply)
    [Event.query 1 (askForeign "x.b."), .respond 0, .recv 0]
    (fun p => decide (p.1.head?.map Moment.shown
        = some (.forwarded 1 0 ⟨0, nameErrorReply (askForeign "x.b.")⟩)) &&
      p.1.all fun m => decide (m.pre.inflight = [] ∨ m.event = .recv 0))
    (by decide +kernel)
  rw [Bool.and_eq_true, decide_eq_true_eq, List.all_eq_true] at htest
  refine ⟨past, s, hrun, htest.1, forward_paired messageID_nameErrorReply hrun ?_⟩
  intro m hm client qs hevent _
  rcases of_decide_eq_true (htest.2 m hm) with hnone | hrecv
  · exact hnone
  · rw [hevent] at hrecv
    cases hrecv

/-- The reply to the query of a client is duplicated, and the next client gets the copy. -/
theorem reply_to_other_query : ∃ past s,
    (interactive servedConfig nameErrorReply).Run past s ∧ ∃ m ∈ past,
      m.shown = .forwarded 2 1 ⟨0, nameErrorReply (askForeign "x.b.")⟩ ∧
        ¬ Paired nameErrorReply m := by
  obtain ⟨past, s, hrun, htest⟩ := Machine.exists_run_of_replay
    (interactive servedConfig nameErrorReply)
    [Event.query 1 (askForeign "x.b."), .respond 0, .duplicate 0, .recv 0,
      .query 2 (askForeign "y.b."), .recv 0]
    (fun p => p.1.any fun m =>
      decide (m.shown = .forwarded 2 1 ⟨0, nameErrorReply (askForeign "x.b.")⟩))
    (by decide +kernel)
  obtain ⟨m, hm, hshown⟩ := List.any_eq_true.mp htest
  have hshown' := of_decide_eq_true hshown
  refine ⟨past, s, hrun, m, hm, hshown', fun hpaired => ?_⟩
  obtain ⟨hsame, -⟩ := hpaired _ _ _ hshown'
  exact absurd hsame (by decide)

end Dnsd
