/-
# Registration

A client is registered once it has chosen a nickname with `NICK` and given its names with `USER`.
The bits of its status are set in three functions, and `call` reads one of them before the handler
runs and may set it afterwards.  The history of the connection says the same without them.

* `StatusStep`, `cmds_status` : what a handler does to the bits;
* `call_registers` : what a command does to them, and whom it welcomes;
* `connection`, `succeeded`, `sentTo` : the history of a connection;
* `Registration` : the agreement of the bits with the history, with `registration_next`;
* `registration` : when a client is registered, which handlers run for it and when it is welcomed.
-/
import IntroNP.MircdDispatch

namespace Mircd

open Machine

/-! ## The bits of the status -/

/-- The bits after a command that has returned. -/
def Status.after (cmd : Bytes) (s : Status) : Status :=
  { s with nick := s.nick || cmd = ascii "NICK", user := s.user || cmd = ascii "USER" }

/-- The bits of the clients are the old ones, but for the client of a command that has
returned. -/
def StatusStep (fd : Fd) (cmd : Bytes) (db db' : Database) : Prop :=
  ∀ f, (db'.clients.lookup f).map Client.status = (db.clients.lookup f).map fun cl =>
    if f = fd then cl.status.after cmd else cl.status

theorem statusStep_setClient {fd : Fd} {cmd : Bytes} {db : Database} {g : Client → Client}
    (h : ∀ cl, (g cl).status = cl.status.after cmd) : StatusStep fd cmd db (db.setClient fd g) := by
  intro f
  rw [lookup_setClient]
  by_cases hf : f = fd
  · rw [if_pos hf, Option.map_map]
    congr 1
    funext cl
    rw [if_pos hf]
    exact h cl
  · simp only [if_neg hf]

/-- A change that keeps all the bits. -/
theorem statusStep_of_same {fd : Fd} {cmd : Bytes} {db db' : Database}
    (hnick : cmd ≠ ascii "NICK") (huser : cmd ≠ ascii "USER")
    (h : ∀ f, (db'.clients.lookup f).map Client.status
      = (db.clients.lookup f).map Client.status) : StatusStep fd cmd db db' := by
  have hafter : ∀ s : Status, s.after cmd = s := by
    intro s
    simp [Status.after, hnick, huser]
  intro f
  simp only [h f, hafter, ite_self]

theorem status_setClient {db : Database} {fd : Fd} {g : Client → Client}
    (h : ∀ cl, (g cl).status = cl.status) (f : Fd) :
    ((db.setClient fd g).clients.lookup f).map Client.status
      = (db.clients.lookup f).map Client.status := by
  rw [lookup_setClient]
  split_ifs
  · rw [Option.map_map]
    congr 1
    exact funext h
  · rfl

/-- The handlers other than `nick` and `user` keep the bits. -/
theorem statusStep_returned {fd : Fd} {cmd : Bytes} {args : List Bytes} {db db' : Database}
    (h : Returned fd db cmd args db') (hnick : cmd ≠ ascii "NICK") (huser : cmd ≠ ascii "USER") :
    StatusStep fd cmd db db' := by
  apply statusStep_of_same hnick huser
  intro f
  cases h with
  | nick => exact absurd rfl hnick
  | user => exact absurd rfl huser
  | @join name rest db₁ client hchannel hclient =>
      rw [Database.joined, setChannel_clients, status_setClient (g := Client.join name) (fun _ => rfl),
        (getchannel_frame hchannel).1]
  | @part name =>
      rw [Database.parted, setChannel_clients,
        status_setClient (g := Client.part name) (fun _ => rfl)]
  | topic => rfl
  | names hchannel => rw [(getchannel_frame hchannel).1]
  | same => rfl

/-- What a handler that returns does to the bits. -/
theorem cmds_status {cmd : Bytes} {item : CmdItem} (h : cmds.lookup cmd = some item) (fd : Fd)
    (argv : List Bytes) (w : World) :
    Ends (item.fp fd argv) w (fun _ w' => StatusStep fd cmd w.db w'.db) (fun _ _ => True) := by
  have hword : ascii "NICK" ≠ ascii "USER" := by decide
  by_cases hnick : cmd = ascii "NICK"
  · subst hnick
    cases h
    cases argv with
    | nil => exact trivial
    | cons nickname rest =>
        simp only [nick, getuser, changeNick, ends_bind, ends_get, ends_ite, ends_throwErr,
          ends_orUndefined, ends_update, ends_send, World.update_db, World.send_db,
          implies_true, and_true, true_and]
        intro _ client _ _ _ _
        -- the table of the nicknames does not matter
        show StatusStep fd (ascii "NICK") (w.db.rename fd client nickname) _
        exact statusStep_setClient (g := Client.setNick nickname) fun cl => by
          simp [Client.setNick, Status.after, hword]
  · by_cases huser : cmd = ascii "USER"
    · subst huser
      cases h
      simp only [user, arg, getuser, ends_bind, ends_get, ends_ite, ends_throwErr,
        ends_orUndefined, ends_update, World.update_db, implies_true, and_true, true_and]
      intro _ _ _ _ _ _ _ _ _ _ _
      exact statusStep_setClient fun cl => by simp [Client.setUser, Status.after, hword.symm]
    · exact (cmds_handles h fd argv w).mono
        (fun _ w' hret => statusStep_returned hret hnick huser) (fun _ _ _ => trivial)

/-- What a command that returns has done to the bits, and what it has sent.  The client is
registered, if it can be, only when it was not before. -/
inductive Registers (fd : Fd) (db : Database) (cmd : Bytes) : Database → List Sent → Prop
  | before {client db' out} (hclient : db.clients.lookup fd = some client)
      (hregist : client.hasRegist = true) (hstatus : StatusStep fd cmd db db')
      (hquiet : ∀ s ∈ out, isWelcome s.2 = false) : Registers fd db cmd db' out
  | now {client db₁ cl out} (hclient : db.clients.lookup fd = some client)
      (hregist : client.hasRegist = false) (hstatus : StatusStep fd cmd db db₁)
      (hquiet : ∀ s ∈ out, isWelcome s.2 = false) (hcl : db₁.clients.lookup fd = some cl) :
      Registers fd db cmd (db₁.setClient fd Client.regist) (out ++
        if cl.registers then [(fd, sendcmdsStr welcomeCmds cl.nickname)] else [])

/-- What a command does to the bits, and what it sends. -/
theorem call_registers (fd : Fd) (argv : List Bytes) (w : World) :
    Ends (call fd argv) w
      (fun _ w' => argv = [] ∧ w' = w ∨ ∃ cmd args out, argv = cmd :: args ∧
        w'.sent = w.sent ++ out ∧ Registers fd w.db cmd w'.db out)
      (fun _ w' => ∃ out, w'.sent = w.sent ++ out ∧ ∀ s ∈ out, isWelcome s.2 = false) := by
  unfold Ends
  rw [call_eq]
  cases hd : dispatch w.db fd argv with
  | nothing =>
      refine Or.inl ⟨?_, rfl⟩
      cases argv with
      | nil => rfl
      | cons cmd args => exact absurd hd (dispatch_cons _ _ _ _)
  | throws e => exact ⟨[], (List.append_nil w.sent).symm, List.forall_mem_nil _⟩
  | handler cmd item args regist =>
      obtain ⟨rfl, hitem, -, client, hclient, rfl, -⟩ := dispatch_eq_handler hd
      show Ends (item.fp fd args >>= _) w _ _
      rw [ends_bind]
      refine ((cmds_status hitem fd args w).and (cmds_quiet hitem fd args w)).mono ?_
        (fun _ _ h => h.2)
      rintro _ w₁ ⟨hstatus, out, hsent, hquiet⟩
      rw [ends_ite, ends_pure]
      constructor
      · intro hregist
        exact Or.inr ⟨cmd, args, out, rfl, hsent, .before hclient hregist hstatus hquiet⟩
      · intro hregist
        simp only [welcome, getuser, ends_bind, ends_get, ends_orUndefined, ends_update, ends_send]
        refine ⟨fun cl hcl => Or.inr ⟨cmd, args, _, rfl, ?_,
          .now hclient (Bool.eq_false_iff.mpr hregist) hstatus hquiet hcl⟩,
          fun _ => ⟨out, hsent, hquiet⟩⟩
        rw [← List.append_assoc, ← hsent]
        rfl

/-! ## The history of a connection -/

/-- The event begins or ends a connection under the file descriptor. -/
def Event.resets (fd : Fd) : Event → Bool
  | .clientAdd f _ _ => f = fd
  | .clientDel f => f = fd
  | .call _ _ => false

/-- The moments of a run since the connection under the file descriptor began, newest first. -/
def connection (past : List (Moment Database Event Shown)) (fd : Fd) :
    List (Moment Database Event Shown) :=
  past.takeWhile fun m => !m.event.resets fd

/-- In the moment the client under the file descriptor runs the command, and it returns. -/
def succeeds (word : Bytes) (fd : Fd) (m : Moment Database Event Shown) : Bool :=
  match m.event, m.shown.outcome with
  | .call f (cmd :: _), .done => f = fd ∧ cmd = word
  | _, _ => false

/-- The command has returned on the connection. -/
def succeeded (word : Bytes) (past : List (Moment Database Event Shown)) (fd : Fd) : Bool :=
  (connection past fd).any (succeeds word fd)

/-- Both `NICK` and `USER` have returned on the connection. -/
def registered (past : List (Moment Database Event Shown)) (fd : Fd) : Bool :=
  succeeded (ascii "NICK") past fd && succeeded (ascii "USER") past fd

/-- The strings sent to the file descriptor since the connection began. -/
def sentTo (past : List (Moment Database Event Shown)) (fd : Fd) : List Bytes :=
  (connection past fd).flatMap fun m => (m.shown.sent.filter (·.1 = fd)).map Prod.snd

section history

variable {past : List (Moment Database Event Shown)} {m : Moment Database Event Shown} {fd : Fd}

theorem connection_reset (h : m.event.resets fd = true) : connection (m :: past) fd = [] := by
  rw [connection, List.takeWhile_cons_of_neg]
  simp [h]

theorem connection_cons (h : m.event.resets fd = false) :
    connection (m :: past) fd = m :: connection past fd := by
  rw [connection, List.takeWhile_cons_of_pos, connection]
  simp [h]

theorem succeeded_reset (h : m.event.resets fd = true) (word : Bytes) :
    succeeded word (m :: past) fd = false := by
  rw [succeeded, connection_reset h, List.any_nil]

theorem succeeded_cons (h : m.event.resets fd = false) (word : Bytes) :
    succeeded word (m :: past) fd = (succeeds word fd m || succeeded word past fd) := by
  rw [succeeded, connection_cons h, List.any_cons, succeeded]

theorem sentTo_reset (h : m.event.resets fd = true) : sentTo (m :: past) fd = [] := by
  rw [sentTo, connection_reset h, List.flatMap_nil]

theorem sentTo_cons (h : m.event.resets fd = false) : sentTo (m :: past) fd
    = (m.shown.sent.filter (·.1 = fd)).map Prod.snd ++ sentTo past fd := by
  rw [sentTo, connection_cons h, List.flatMap_cons, sentTo]

/-- The welcomes of a connection, one moment later. -/
theorem length_welcomes_cons (h : m.event.resets fd = false) :
    ((sentTo (m :: past) fd).filter isWelcome).length
      = (m.shown.sent.filter fun s => s.1 = fd ∧ isWelcome s.2).length
        + ((sentTo past fd).filter isWelcome).length := by
  have hmoment : ∀ sent : List Sent,
      (((sent.filter (·.1 = fd)).map Prod.snd).filter isWelcome).length
        = (sent.filter fun s => s.1 = fd ∧ isWelcome s.2).length := by
    intro sent
    rw [List.filter_map, List.length_map, List.filter_filter]
    congr 1
    apply List.filter_congr
    intro s _
    by_cases hs : s.1 = fd <;> simp [hs]
  rw [sentTo_cons h, List.filter_append, List.length_append, hmoment]

/-- A registered connection stays registered as long as it lasts. -/
theorem registered_cons (h : m.event.resets fd = false) (hreg : registered past fd = true) :
    registered (m :: past) fd = true := by
  rw [registered, Bool.and_eq_true] at hreg ⊢
  rw [succeeded_cons h, succeeded_cons h, hreg.1, hreg.2]
  simp

end history

/-! ## The invariant -/

/-- The bits of each client are what the history of its connection says, and the client has been
welcomed once if it is registered, and not at all if it is not. -/
structure Registration (past : List (Moment Database Event Shown)) (db : Database) : Prop where
  /-- The bits. -/
  status : ∀ fd cl, db.clients.lookup fd = some cl →
    cl.status = ⟨succeeded (ascii "NICK") past fd, succeeded (ascii "USER") past fd,
      registered past fd⟩
  /-- The welcomes. -/
  welcomes : ∀ fd, ((sentTo past fd).filter isWelcome).length
    = if registered past fd = true then 1 else 0

theorem registration_initial : Registration [] Database.initial where
  status := by rintro fd cl ⟨⟩
  welcomes := by
    intro fd
    rfl

section steps

variable {past : List (Moment Database Event Shown)} {db db' : Database} {fd : Fd}
  {argv : List Bytes} {shown : Shown}

/-- A moment of a connection welcomes its client when the client has become registered in it, and
otherwise nobody. -/
def Welcomes (past : List (Moment Database Event Shown)) (m : Moment Database Event Shown)
    (db' : Database) (fd : Fd) : Prop :=
  if registered past fd = false ∧ registered (m :: past) fd = true then
    ∃ before cl, m.shown.outcome = .done ∧ db'.clients.lookup fd = some cl ∧
      m.shown.sent = before ++ [(fd, sendcmdsStr welcomeCmds cl.nickname)] ∧
      ∀ s ∈ before, isWelcome s.2 = false
  else ∀ s ∈ m.shown.sent, isWelcome s.2 = false

/-- What a command sends to a file descriptor, counted in welcomes. -/
theorem Welcomes.length {m : Moment Database Event Shown} (h : Welcomes past m db' fd)
    (hother : ∀ f, f ≠ fd → registered (m :: past) f = registered past f) (f : Fd) :
    (m.shown.sent.filter fun s => s.1 = f ∧ isWelcome s.2).length
      = if registered past f = false ∧ registered (m :: past) f = true then 1 else 0 := by
  have hquiet : ∀ out : List Sent, (∀ s ∈ out, isWelcome s.2 = false) →
      out.filter (fun s => s.1 = f ∧ isWelcome s.2) = [] := by
    intro out hout
    rw [List.filter_eq_nil_iff]
    intro s hs
    simp [hout s hs]
  have hsame : f ≠ fd → ¬ (registered past f = false ∧ registered (m :: past) f = true) := by
    rintro hf ⟨hfalse, htrue⟩
    rw [hother f hf, hfalse] at htrue
    cases htrue
  unfold Welcomes at h
  split_ifs at h with hnow
  · obtain ⟨before, cl, -, -, hsent, hbefore⟩ := h
    rw [hsent, List.filter_append, hquiet before hbefore, List.nil_append]
    by_cases hf : f = fd
    · subst hf
      rw [if_pos hnow, List.filter_cons_of_pos]
      · rfl
      · simp [isWelcome_welcomeCmds]
    · rw [if_neg (hsame hf), List.filter_cons_of_neg]
      · rfl
      · simp [Ne.symm hf]
  · rw [hquiet _ h]
    by_cases hf : f = fd
    · subst hf
      rw [if_neg hnow]
      rfl
    · rw [if_neg (hsame hf)]
      rfl

/-- A command keeps the count of the welcomes, if it welcomes its client as it should. -/
theorem Registration.of_welcomes (h : Registration past db)
    (hstatus : ∀ f cl, db'.clients.lookup f = some cl →
      cl.status = ⟨succeeded (ascii "NICK") (⟨db, .call fd argv, shown⟩ :: past) f,
        succeeded (ascii "USER") (⟨db, .call fd argv, shown⟩ :: past) f,
        registered (⟨db, .call fd argv, shown⟩ :: past) f⟩)
    (hwelcomes : Welcomes past ⟨db, .call fd argv, shown⟩ db' fd)
    (hother : ∀ f, f ≠ fd →
      registered (⟨db, .call fd argv, shown⟩ :: past) f = registered past f) :
    Registration (⟨db, .call fd argv, shown⟩ :: past) db' where
  status := hstatus
  welcomes := by
    intro f
    rw [length_welcomes_cons rfl, h.welcomes f, hwelcomes.length hother f]
    by_cases hold : registered past f = true
    · rw [if_neg (by simp [hold]), if_pos hold, if_pos (registered_cons rfl hold)]
    · rw [if_neg hold]
      simp [hold]

/-- A moment in which no command returns. -/
theorem succeeded_skip {m : Moment Database Event Shown} {f : Fd}
    (hreset : m.event.resets f = false) (h : ∀ word, succeeds word f m = false) (word : Bytes) :
    succeeded word (m :: past) f = succeeded word past f := by
  rw [succeeded_cons hreset, h, Bool.false_or]

/-- A command that changes no bits and welcomes nobody. -/
theorem Registration.skip (h : Registration past db)
    (hclients : db'.clients = db.clients) (hquiet : ∀ s ∈ shown.sent, isWelcome s.2 = false)
    (hnone : ∀ word f, succeeds word f ⟨db, .call fd argv, shown⟩ = false) :
    Registration (⟨db, .call fd argv, shown⟩ :: past) db' ∧
      Welcomes past ⟨db, .call fd argv, shown⟩ db' fd := by
  have hsame : ∀ word f, succeeded word (⟨db, .call fd argv, shown⟩ :: past) f
      = succeeded word past f := fun word f => succeeded_skip rfl (fun w => hnone w f) word
  have hreg : ∀ f, registered (⟨db, .call fd argv, shown⟩ :: past) f = registered past f := by
    intro f
    rw [registered, hsame, hsame, registered]
  have hwelcomes : Welcomes past ⟨db, .call fd argv, shown⟩ db' fd := by
    rw [Welcomes, if_neg]
    · exact hquiet
    · rintro ⟨hfalse, htrue⟩
      rw [hreg, hfalse] at htrue
      cases htrue
  refine ⟨h.of_welcomes (fun f cl hcl => ?_) hwelcomes (fun f _ => hreg f), hwelcomes⟩
  rw [hclients] at hcl
  rw [h.status f cl hcl, hsame, hsame, hreg]

/-- The bits after a registration. -/
theorem status_regist (cl : Client) :
    cl.regist.status = { cl.status with welcome := cl.status.welcome || cl.canRegist } := by
  rcases hs : cl.status with ⟨n, u, w⟩
  unfold Client.regist Client.registers Client.hasRegist Client.canRegist
  cases n <;> cases u <;> cases w <;> simp [hs]

/-- A command that returns may be one of the two. -/
theorem succeeded_done (cmd : Bytes) (args : List Bytes) (out : List Sent) (word : Bytes) (f : Fd) :
    succeeded word (⟨db, .call fd (cmd :: args), ⟨.done, out⟩⟩ :: past) f
      = (decide (fd = f ∧ cmd = word) || succeeded word past f) :=
  succeeded_cons rfl word

/-- The bits when the handler has returned. -/
theorem Registration.handled (h : Registration past db) {cmd : Bytes} {db₁ : Database}
    (hstatus : StatusStep fd cmd db db₁) (args : List Bytes) (out : List Sent) (f : Fd)
    (cl : Client) (hcl : db₁.clients.lookup f = some cl) :
    cl.status = ⟨succeeded (ascii "NICK") (⟨db, .call fd (cmd :: args), ⟨.done, out⟩⟩ :: past) f,
      succeeded (ascii "USER") (⟨db, .call fd (cmd :: args), ⟨.done, out⟩⟩ :: past) f,
      registered past f⟩ := by
  have hmap := hstatus f
  rw [hcl, Option.map_some, eq_comm, Option.map_eq_some_iff] at hmap
  obtain ⟨cl₀, hcl₀, hmap⟩ := hmap
  rw [← hmap, h.status f cl₀ hcl₀, succeeded_done, succeeded_done]
  by_cases hf : f = fd
  · simp [Status.after, hf, Bool.or_comm]
  · simp [hf, Ne.symm hf]

/-- A client that is registered is not welcomed. -/
theorem Welcomes.again {m : Moment Database Event Shown} (hreg : registered past fd = true)
    (hquiet : ∀ s ∈ m.shown.sent, isWelcome s.2 = false) : Welcomes past m db' fd := by
  rw [Welcomes, if_neg]
  · exact hquiet
  · rintro ⟨hfalse, -⟩
    rw [hreg] at hfalse
    cases hfalse

/-- A command that returns. -/
theorem Registration.returned (h : Registration past db) {cmd : Bytes} {args : List Bytes}
    {out : List Sent} (hret : Registers fd db cmd db' out) :
    Registration (⟨db, .call fd (cmd :: args), ⟨.done, out⟩⟩ :: past) db' ∧
      Welcomes past ⟨db, .call fd (cmd :: args), ⟨.done, out⟩⟩ db' fd := by
  have hother : ∀ f, f ≠ fd → registered (⟨db, .call fd (cmd :: args), ⟨.done, out⟩⟩ :: past) f
      = registered past f := by
    intro f hf
    rw [registered, succeeded_done, succeeded_done, registered]
    simp [Ne.symm hf]
  have hold : ∀ client, db.clients.lookup fd = some client →
      registered past fd = client.hasRegist := by
    intro client hclient
    rw [Client.hasRegist, h.status fd client hclient]
  cases hret with
  | @before client _ _ hclient hregist hstatus hquiet =>
      have hthen : registered past fd = true := (hold client hclient).trans hregist
      have hnow : registered (⟨db, .call fd (cmd :: args), ⟨.done, out⟩⟩ :: past) fd = true :=
        registered_cons rfl hthen
      have hwelcomes : Welcomes past ⟨db, .call fd (cmd :: args), ⟨.done, out⟩⟩ db' fd :=
        .again hthen hquiet
      refine ⟨h.of_welcomes (fun f cl hcl => ?_) hwelcomes hother, hwelcomes⟩
      rw [h.handled hstatus args out f cl hcl]
      by_cases hf : f = fd
      · rw [hf, hthen, hnow]
      · rw [hother f hf]
  | @now client db₁ cl before hclient hregist hstatus hquiet hcl =>
      have hthen : registered past fd = false := (hold client hclient).trans hregist
      have hbits := h.handled hstatus args (before ++
        if cl.registers then [(fd, sendcmdsStr welcomeCmds cl.nickname)] else [])
      have hcan : cl.canRegist = registered (⟨db, .call fd (cmd :: args), ⟨.done, before ++
          if cl.registers then [(fd, sendcmdsStr welcomeCmds cl.nickname)] else []⟩⟩ :: past) fd := by
        rw [Client.canRegist, hbits fd cl hcl]
        rfl
      have hreg : cl.registers = cl.canRegist := by
        rw [Client.registers, Client.hasRegist, hbits fd cl hcl, hthen, Bool.not_false,
          Bool.true_and]
      have hwelcomes : Welcomes past ⟨db, .call fd (cmd :: args), ⟨.done, before ++
          if cl.registers then [(fd, sendcmdsStr welcomeCmds cl.nickname)] else []⟩⟩
          (db₁.setClient fd Client.regist) fd := by
        unfold Welcomes
        rw [← hcan, ← hreg]
        by_cases hcl' : cl.registers = true
        · rw [if_pos ⟨hthen, hcl'⟩]
          refine ⟨before, cl.regist, rfl, ?_, ?_, hquiet⟩
          · rw [lookup_setClient, if_pos rfl, hcl, Option.map_some]
          · rw [regist_nickname, if_pos hcl']
        · rw [if_neg (fun hnow => hcl' hnow.2), if_neg hcl', List.append_nil]
          exact hquiet
      refine ⟨h.of_welcomes (fun f cl' hlook => ?_) hwelcomes hother, hwelcomes⟩
      rw [lookup_setClient] at hlook
      split_ifs at hlook with hf
      · subst hf
        rw [hcl] at hlook
        cases hlook
        rw [status_regist, hcan, hbits f cl hcl, hthen, Bool.false_or]
      · rw [hbits f cl' hlook, hother f hf]

/-- A command of a connected client. -/
theorem Registration.call (h : Registration past db)
    (hs : runCall db fd argv = some (db', shown)) :
    Registration (⟨db, .call fd argv, shown⟩ :: past) db' ∧
      Welcomes past ⟨db, .call fd argv, shown⟩ db' fd := by
  have hends := call_registers fd argv ⟨db, []⟩
  -- a command that throws has neither sent a welcome nor changed a client
  have hthrows : ∀ {e : Exn} {w' : World}, Mircd.call fd argv ⟨db, []⟩ = .error e w' →
      e ≠ .undefined → w'.db.clients = db.clients ∧ ∀ s ∈ w'.sent, isWelcome s.2 = false := by
    intro e w' hrun hdef
    obtain ⟨out, hsent, hquiet⟩ := hends.of_error hrun
    obtain ⟨_, _, _, hthrew⟩ := (call_ends fd argv ⟨db, []⟩).of_error hrun
    rw [hsent]
    exact ⟨(hthrew.frame hdef).1, hquiet⟩
  unfold runCall at hs
  split at hs
  · next w' hrun =>
      cases hs
      rcases hends.of_ok hrun with ⟨rfl, rfl⟩ | ⟨cmd, args, out, rfl, hsent, hret⟩
      · exact h.skip rfl (List.forall_mem_nil _) (fun _ _ => rfl)
      · rw [List.nil_append] at hsent
        rw [hsent]
        exact h.returned hret
  · next msg w' hrun =>
      cases hs
      obtain ⟨hclients, hquiet⟩ := hthrows hrun (by simp)
      exact h.skip hclients hquiet (fun _ _ => by cases argv <;> rfl)
  · next w' hrun =>
      cases hs
      obtain ⟨hclients, hquiet⟩ := hthrows hrun (by simp)
      exact h.skip hclients hquiet (fun _ _ => by cases argv <;> rfl)
  · cases hs

/-- An event that begins or ends a connection, for the other connections and for its own. -/
theorem Registration.reset (h : Registration past db) {a : Event}
    (hown : ∀ f cl, a.resets f = true → db'.clients.lookup f = some cl →
      cl.status = ⟨false, false, false⟩)
    (hother : ∀ f, a.resets f = false → db'.clients.lookup f = db.clients.lookup f)
    (hcall : ∀ f argv, a ≠ .call f argv) (hsent : shown.sent = []) :
    Registration (⟨db, a, shown⟩ :: past) db' := by
  have hsame : ∀ f, a.resets f = false → ∀ word,
      succeeded word (⟨db, a, shown⟩ :: past) f = succeeded word past f := by
    intro f hf
    refine succeeded_skip hf fun word => ?_
    cases a with
    | call f argv => exact absurd rfl (hcall f argv)
    | _ => rfl
  constructor
  · intro f cl hcl
    cases hf : a.resets f with
    | true =>
        rw [hown f cl hf hcl, registered, succeeded_reset hf, succeeded_reset hf]
        rfl
    | false =>
        rw [hother f hf] at hcl
        rw [h.status f cl hcl, registered, registered, hsame f hf, hsame f hf]
  · intro f
    cases hf : a.resets f with
    | true =>
        rw [sentTo_reset hf, registered, succeeded_reset hf]
        rfl
    | false =>
        rw [length_welcomes_cons hf, h.welcomes f, registered, registered, hsame f hf, hsame f hf]
        simp [hsent]

/-- Every step keeps the invariant. -/
theorem registration_next (h : Registration past db) {a : Event}
    (hs : next db a = some (db', shown)) : Registration (⟨db, a, shown⟩ :: past) db' := by
  cases next_iff_happens.mp hs with
  | clientAdd hfree =>
      refine h.reset (fun f cl hf hcl => ?_) (fun f hf => ?_) (fun _ _ => by simp) rfl
      · rw [lookup_clientAdd hfree, if_pos (of_decide_eq_true hf).symm] at hcl
        cases hcl
        rfl
      · rw [lookup_clientAdd hfree, if_neg (Ne.symm (of_decide_eq_false hf))]
  | call hconn hcall => exact (h.call hcall).1
  | clientDel =>
      refine h.reset (fun f cl hf hcl => ?_) (fun f hf => ?_) (fun _ _ => by simp) rfl
      · rw [lookup_clientDel, if_pos (of_decide_eq_true hf).symm] at hcl
        cases hcl
      · rw [lookup_clientDel, if_neg (Ne.symm (of_decide_eq_false hf))]

end steps

/-! ## Runs -/

/-- In every run: a client has the WELCOME bit if and only if it has the other two; a handler
other than `nick`, `user` and `quit` runs only for a client that has completed a `NICK` and a
`USER` on its connection; the call in which the second of the two first succeeds ends with the
welcome of the client, and no other call welcomes anybody, so that a connection is welcomed at
most once.  A run has no successor for a call that reads a dangling reference. -/
theorem registration {past : List (Moment Database Event Shown)} {db : Database}
    (hrun : Run system past db) :
    (∀ fd cl, db.clients.lookup fd = some cl →
      (cl.status.welcome = true ↔ cl.status.nick = true ∧ cl.status.user = true)) ∧
    (∀ fd argv cmd item args regist,
      dispatch db fd argv = .handler cmd item args regist →
      cmd ≠ ascii "NICK" → cmd ≠ ascii "USER" → cmd ≠ ascii "QUIT" →
      registered past fd = true) ∧
    (∀ fd argv db' shown, next db (.call fd argv) = some (db', shown) →
      Welcomes past ⟨db, .call fd argv, shown⟩ db' fd) ∧
    ∀ fd, ((sentTo past fd).filter isWelcome).length ≤ 1 := by
  have h : Registration past db := hrun.history_invariant (C := fun _ _ => True)
    registration_initial (fun _ _ _ _ _ _ h _ hs => registration_next h hs) (fun _ _ => trivial)
  refine ⟨fun fd cl hcl => ?_, ?_, ?_, fun fd => ?_⟩
  · rw [h.status fd cl hcl, registered, Bool.and_eq_true]
  · intro fd argv cmd item args regist hd hnick huser hquit
    obtain ⟨-, -, -, client, hclient, hregist, hallow⟩ := dispatch_eq_handler hd
    cases regist with
    | true =>
        rw [Client.hasRegist, h.status fd client hclient] at hregist
        exact hregist
    | false =>
        have hmem := hallow rfl
        simp only [unregAllow, List.mem_cons, List.not_mem_nil, or_false] at hmem
        rcases hmem with hmem | hmem | hmem
        · exact absurd hmem hnick
        · exact absurd hmem huser
        · exact absurd hmem hquit
  · intro fd argv db' shown hs
    cases next_iff_happens.mp hs with
    | call hconn hcall => exact (h.call hcall).2
  · rw [h.welcomes fd]
    split_ifs <;> decide

/-- A client gives its names twice, fails to choose a nickname, chooses one, and renames itself:
it has been welcomed once. -/
theorem registration_late : ∃ past db, Run system past db ∧ registered past 4 = true ∧
    ((sentTo past 4).filter isWelcome).length = 1 := by
  obtain ⟨past, db, hrun, htest⟩ := exists_run_of_replay system
    [.clientAdd 4 [] [], .call 4 [ascii "USER", ascii "u", ascii "h", ascii "s", ascii "r"],
      .call 4 [ascii "NICK", ascii "1bad"],
      .call 4 [ascii "USER", ascii "u", ascii "h", ascii "s", ascii "r"],
      .call 4 [ascii "NICK", ascii "alice"], .call 4 [ascii "NICK", ascii "bob"]]
    (fun r => registered r.1 4 && decide (1 ≤ ((sentTo r.1 4).filter isWelcome).length))
    (by decide +kernel)
  rw [Bool.and_eq_true, decide_eq_true_eq] at htest
  obtain ⟨hreg, hone⟩ := htest
  exact ⟨past, db, hrun, hreg, le_antisymm ((registration hrun).2.2.2 4) hone⟩

end Mircd
