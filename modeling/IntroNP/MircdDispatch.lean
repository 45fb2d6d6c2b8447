/-
# What `call` runs, and what handlers send

`call` makes four checks before it runs the handler of a command; here they are one function.
What a handler passes to `send` is bounded by rules that follow its text.

* `dispatch`, `call_eq` : the checks of `call` and what it does after them;
* `Sends` : what a program may pass to `send`, with one rule for each construct;
* `isWelcome`, `Quiet` : the welcome of a client, and the programs that never send it;
* `cmds_quiet` : the handlers are such programs.
-/
import IntroNP.MircdEffects

namespace Mircd

/-! ## The checks of `call` -/

/-- What `call` does after its checks. -/
inductive Dispatch where
  | nothing
  | throws (e : Exn)
  /-- The handler of the command runs; `regist` is what `hasRegist` has returned before. -/
  | handler (cmd : Bytes) (item : CmdItem) (argv : List Bytes) (regist : Bool)

/-- The checks of `call`. -/
def dispatch (db : Database) (connfd : Fd) : List Bytes → Dispatch
  | [] => .nothing
  | cmd :: argv =>
      match cmds.lookup cmd, db.clients.lookup connfd with
      | none, _ => .throws (.cmdMsg (.ofERR .UNKNOWNCOMMAND [cmd, ascii "Unknown command"]))
      | some _, none => .throws .undefined
      | some item, some client =>
          if !client.hasRegist && !unregAllow.contains cmd then
            .throws (.cmdMsg (.ofERR .NOTREGISTERED [ascii "You have not registered"]))
          else if argv.length < item.parmMin then
            .throws (.cmdMsg (.ofERR .NEEDMOREPARAMS [cmd, ascii "Not enough parameters"]))
          else .handler cmd item argv client.hasRegist

theorem dispatch_cons (db : Database) (connfd : Fd) (cmd : Bytes) (argv : List Bytes) :
    dispatch db connfd (cmd :: argv) ≠ .nothing := by
  intro h
  rw [dispatch] at h
  split at h
  · cases h
  · cases h
  · split_ifs at h

theorem getuser_eq (connfd : Fd) (w : World) : getuser connfd w
    = match w.db.clients.lookup connfd with
      | none => .error .undefined w
      | some client => .ok client w := by
  show orUndefined (w.db.clients.lookup connfd) w = _
  cases w.db.clients.lookup connfd <;> rfl

/-- `call` makes its checks, runs the handler, and registers the client at the end. -/
theorem call_eq (connfd : Fd) (argv : List Bytes) (w : World) :
    call connfd argv w = match dispatch w.db connfd argv with
      | .nothing => .ok ⟨⟩ w
      | .throws e => .error e w
      | .handler _ item argv regist =>
          (item.fp connfd argv >>= fun _ => if regist then pure ⟨⟩ else welcome connfd) w := by
  cases argv with
  | nil => rfl
  | cons cmd argv =>
      rw [call, dispatch]
      cases cmds.lookup cmd with
      | none => rfl
      | some item =>
          dsimp only
          rw [bind_eq, getuser_eq]
          cases w.db.clients.lookup connfd with
          | none => rfl
          | some client =>
              dsimp only
              split_ifs <;> first | rfl | (next hregist => simp [hregist])

/-- A handler runs for a client that has registered, or that runs one of three commands, and with
enough parameters. -/
theorem dispatch_eq_handler {db : Database} {fd : Fd} {argv args : List Bytes} {cmd : Bytes}
    {item : CmdItem} {regist : Bool} (h : dispatch db fd argv = .handler cmd item args regist) :
    argv = cmd :: args ∧ cmds.lookup cmd = some item ∧ item.parmMin ≤ args.length ∧
      ∃ client, db.clients.lookup fd = some client ∧ client.hasRegist = regist ∧
        (regist = false → cmd ∈ unregAllow) := by
  cases argv with
  | nil => cases h
  | cons c argv =>
      rw [dispatch] at h
      cases hitem : cmds.lookup c with
      | none =>
          rw [hitem] at h
          cases h
      | some i =>
          cases hclient : db.clients.lookup fd with
          | none =>
              rw [hitem, hclient] at h
              cases h
          | some client =>
              rw [hitem, hclient] at h
              dsimp only at h
              split_ifs at h with hallow hparm
              cases h
              refine ⟨rfl, hitem, Nat.le_of_not_lt hparm, client, rfl, rfl, fun hregist => ?_⟩
              simpa [hregist] using hallow

/-! ## What is sent -/

/-- All that the program passes to `send`, whether it returns or throws, satisfies `P`. -/
def Sends (P : Sent → Prop) {α : Type} (m : M α) : Prop :=
  ∀ w : World, Ends m w (fun _ w' => ∃ out, w'.sent = w.sent ++ out ∧ ∀ s ∈ out, P s)
    (fun _ w' => ∃ out, w'.sent = w.sent ++ out ∧ ∀ s ∈ out, P s)

section sends

variable {P : Sent → Prop} {α β : Type}

theorem sends_pure (a : α) : Sends P (pure a : M α) :=
  fun w => ⟨[], (List.append_nil w.sent).symm, List.forall_mem_nil _⟩

theorem sends_throw (e : Exn) : Sends P (throw e : M α) :=
  fun w => ⟨[], (List.append_nil w.sent).symm, List.forall_mem_nil _⟩

theorem sends_get : Sends P (get : M World) :=
  fun w => ⟨[], (List.append_nil w.sent).symm, List.forall_mem_nil _⟩

theorem sends_update (f : Database → Database) : Sends P (update f) :=
  fun w => ⟨[], (List.append_nil w.sent).symm, List.forall_mem_nil _⟩

theorem sends_send {out : List Sent} (h : ∀ s ∈ out, P s) : Sends P (send out) :=
  fun _ => ⟨out, rfl, h⟩

theorem sends_orUndefined (o : Option α) : Sends P (orUndefined o) := by
  cases o with
  | none => exact sends_throw _
  | some a => exact sends_pure a

/-- A program that goes on with a value that is there. -/
theorem sends_orUndefined_bind {o : Option β} {f : β → M α}
    (h : ∀ b, o = some b → Sends P (f b)) : Sends P (orUndefined o >>= f) := by
  cases o with
  | none => exact sends_throw _
  | some b => exact h b rfl

theorem Sends.bind {m : M β} {f : β → M α} (hm : Sends P m) (hf : ∀ b, Sends P (f b)) :
    Sends P (m >>= f) := by
  intro w
  rw [ends_bind]
  refine (hm w).mono (fun b w₁ => ?_) (fun _ _ h => h)
  rintro ⟨out, hsent, hout⟩
  -- what the second program sends comes behind what the first one has sent
  have hjoin : ∀ w' : World, (∃ out', w'.sent = w₁.sent ++ out' ∧ ∀ s ∈ out', P s) →
      ∃ out', w'.sent = w.sent ++ out' ∧ ∀ s ∈ out', P s := by
    rintro w' ⟨out', hsent', hout'⟩
    refine ⟨out ++ out', by rw [hsent', hsent, List.append_assoc], fun s hs => ?_⟩
    rcases List.mem_append.mp hs with hs | hs
    · exact hout s hs
    · exact hout' s hs
  exact (hf b w₁).mono (fun _ => hjoin) (fun _ => hjoin)

theorem sends_ite {c : Prop} [Decidable c] {m m' : M α} (hm : Sends P m) (hm' : Sends P m') :
    Sends P (if c then m else m') := by
  split_ifs
  · exact hm
  · exact hm'

theorem sends_getuser (fd : Fd) : Sends P (getuser fd) :=
  sends_get.bind fun _ => sends_orUndefined _

theorem sends_readChannel (name : Bytes) : Sends P (readChannel name) :=
  sends_get.bind fun _ => sends_orUndefined _

theorem sends_getchannel (name : Bytes) : Sends P (getchannel name) := by
  refine sends_get.bind fun w => ?_
  cases w.db.getchannel name with
  | none => exact sends_throw _
  | some db => exact sends_update _

theorem sends_broadcast {fds : List Fd} {cmd : CmdMsg} {nick : Bytes}
    (h : ∀ fd ∈ fds, P (fd, sendcmdsStr [cmd] nick)) : Sends P (broadcast fds cmd nick) := by
  refine sends_send fun s hs => ?_
  obtain ⟨fd, hfd, rfl⟩ := List.mem_map.mp hs
  exact h fd hfd

end sends

/-- The string begins with the number of `RPL::WELCOME`, as the welcome does. -/
def isWelcome (text : Bytes) : Bool := (dec03 RPL.WELCOME.code).isPrefixOf text

/-- The welcome of a client. -/
theorem isWelcome_welcomeCmds (nick : Bytes) :
    isWelcome (sendcmdsStr welcomeCmds nick) = true := by
  rfl

/-- The line of a message does not begin a welcome. -/
def CmdMsg.Plain (m : CmdMsg) : Prop :=
  ∀ nick rest, isWelcome (m.render nick ++ rest) = false

theorem plain_ofText (word : String) (argv : List Bytes) : (CmdMsg.ofText word argv).Plain := by
  intro nick rest
  rfl

theorem plain_ofRPL {r : RPL} (hr : r ≠ .WELCOME) (argv : List Bytes) :
    (CmdMsg.ofRPL r argv).Plain := by
  intro nick rest
  cases r with
  | WELCOME => exact absurd rfl hr
  | _ => rfl

theorem isWelcome_sendcmdsStr {cmds : List CmdMsg} (h : ∀ m ∈ cmds, m.Plain) (nick : Bytes) :
    isWelcome (sendcmdsStr cmds nick) = false := by
  cases cmds with
  | nil => rfl
  | cons m cmds => exact h m List.mem_cons_self nick (sendcmdsStr cmds nick)

theorem plain_gettopic (channel : Channel) : channel.gettopic.Plain := by
  unfold Channel.gettopic
  split_ifs <;> exact plain_ofRPL (by decide) _

theorem plain_getusers {db : Database} {channel : Channel} {out : List CmdMsg}
    (h : db.getusers channel = some out) : ∀ m ∈ out, m.Plain := by
  obtain ⟨users, -, h⟩ := Option.bind_eq_some_iff.mp h
  have hlast := plain_ofRPL (r := .ENDOFNAMES) (by decide)
  have hlist := plain_ofRPL (r := .NAMREPLY) (by decide)
  intro m hm
  split_ifs at h <;> cases h
  · rw [List.mem_singleton.mp hm]
    exact hlast _
  · rcases List.mem_cons.mp hm with rfl | hm
    · exact hlist _
    · rw [List.mem_singleton.mp hm]
      exact hlast _

/-- A program that welcomes nobody. -/
abbrev Quiet {α : Type} (m : M α) : Prop := Sends (fun s => isWelcome s.2 = false) m

theorem quiet_sendcmds {cmds : List CmdMsg} (h : ∀ m ∈ cmds, m.Plain) (fd : Fd) (nick : Bytes) :
    Quiet (sendcmds fd cmds nick) := by
  refine sends_send fun s hs => ?_
  rw [List.mem_singleton.mp hs]
  exact isWelcome_sendcmdsStr h nick

theorem quiet_broadcast {cmd : CmdMsg} (h : cmd.Plain) (fds : List Fd) (nick : Bytes) :
    Quiet (broadcast fds cmd nick) := by
  refine sends_broadcast fun fd _ => isWelcome_sendcmdsStr (fun m hm => ?_) nick
  rw [List.mem_singleton.mp hm]
  exact h

section handlers

variable (fd : Fd) (argv : List Bytes)

theorem quiet_changeNick (nickname : Bytes) : Quiet (changeNick fd nickname) := by
  refine (sends_getuser fd).bind fun client => sends_ite (sends_throw _) ?_
  refine Sends.bind (sends_send fun s hs => ?_) fun _ => sends_update _
  split_ifs at hs
  · rw [List.mem_singleton.mp hs]
    rfl
  · cases hs

theorem quiet_nick : Quiet (nick fd argv) := by
  cases argv with
  | nil => exact sends_throw _
  | cons nickname rest =>
      refine sends_get.bind fun w => sends_ite (sends_throw _) ?_
      refine (sends_getuser fd).bind fun client => ?_
      exact (sends_update _).bind fun _ => quiet_changeNick fd nickname

theorem quiet_user : Quiet (user fd argv) := by
  refine (sends_getuser fd).bind fun client => sends_ite (sends_throw _) ?_
  refine (sends_orUndefined _).bind fun username => (sends_orUndefined _).bind fun hostname => ?_
  exact (sends_orUndefined _).bind fun servername => (sends_orUndefined _).bind fun realname =>
    sends_update _

theorem quiet_quit : Quiet (quit fd argv) := sends_throw _

theorem quiet_names : Quiet (names fd argv) := by
  refine (sends_getuser fd).bind fun client => ?_
  cases argv with
  | nil =>
      refine sends_get.bind fun w => sends_orUndefined_bind fun outs houts => ?_
      refine quiet_sendcmds (fun m hm => ?_) fd client.nickname
      obtain ⟨out, hout, hm⟩ := List.mem_flatten.mp hm
      obtain ⟨channel, -, hchannel⟩ := mem_of_mapM houts hout
      exact plain_getusers hchannel m hm
  | cons name rest =>
      refine (sends_getchannel name).bind fun _ => (sends_readChannel name).bind fun channel => ?_
      refine sends_get.bind fun w => sends_orUndefined_bind fun out hout => ?_
      exact quiet_sendcmds (plain_getusers hout) fd client.nickname

theorem quiet_join : Quiet (join fd argv) := by
  refine (sends_orUndefined _).bind fun name => (sends_getchannel name).bind fun _ => ?_
  refine (sends_update _).bind fun _ => Sends.bind ?_ fun _ => ?_
  · refine (sends_getuser fd).bind fun client => (sends_update _).bind fun _ => ?_
    exact (sends_readChannel name).bind fun channel => quiet_broadcast (plain_ofText _ _) _ _
  · refine (sends_readChannel name).bind fun channel => Sends.bind ?_ fun _ => quiet_names fd _
    refine quiet_sendcmds (fun m hm => ?_) fd name
    rw [List.mem_singleton.mp hm]
    exact plain_gettopic channel

theorem quiet_part : Quiet (part fd argv) := by
  refine (sends_orUndefined _).bind fun name => sends_get.bind fun w => ?_
  refine sends_ite (sends_throw _) ((sends_getuser fd).bind fun client => ?_)
  refine sends_ite (sends_throw _) ((sends_update _).bind fun _ => ?_)
  refine (sends_readChannel name).bind fun channel => (sends_orUndefined _).bind fun ref => ?_
  refine sends_get.bind fun w => (sends_orUndefined _).bind fun client => ?_
  exact (quiet_broadcast (plain_ofText _ _) _ _).bind fun _ => sends_update _

theorem quiet_topic : Quiet (topic fd argv) := by
  refine (sends_orUndefined _).bind fun name => sends_get.bind fun w => ?_
  refine sends_ite (sends_throw _) ((sends_getuser fd).bind fun client => ?_)
  refine sends_ite (sends_throw _) ((sends_readChannel name).bind fun channel => ?_)
  cases argv[1]? with
  | none =>
      refine quiet_sendcmds (fun m hm => ?_) fd client.nickname
      rw [List.mem_singleton.mp hm]
      exact plain_gettopic channel
  | some newTopic =>
      exact (sends_update _).bind fun _ => quiet_broadcast (plain_ofText _ _) _ _

theorem quiet_list : Quiet (list fd argv) := by
  refine (sends_getuser fd).bind fun client => sends_get.bind fun w => ?_
  refine quiet_sendcmds (fun m hm => ?_) fd client.nickname
  rcases List.mem_cons.mp hm with rfl | hm
  · exact plain_ofRPL (by decide) _
  · rcases List.mem_append.mp hm with hm | hm
    · obtain ⟨channel, -, rfl⟩ := List.mem_map.mp hm
      exact plain_ofRPL (by decide) _
    · rw [List.mem_singleton.mp hm]
      exact plain_ofRPL (by decide) _

theorem quiet_privmsg : Quiet (privmsg fd argv) := by
  rcases argv with _ | ⟨name, _ | ⟨text, rest⟩⟩
  · exact sends_throw _
  · exact sends_throw _
  · refine (sends_getuser fd).bind fun client => sends_get.bind fun w => ?_
    cases w.db.channels.lookup name with
    | none => exact sends_throw _
    | some channel => exact quiet_broadcast (plain_ofText _ _) _ _

theorem quiet_ping : Quiet (ping fd argv) := by
  cases argv with
  | nil => exact sends_throw _
  | cons _ _ =>
      refine sends_send fun s hs => ?_
      rw [List.mem_singleton.mp hs]
      rfl

theorem quiet_users : Quiet (users fd argv) := by
  refine sends_get.bind fun w => quiet_sendcmds (fun m hm => ?_) fd []
  rcases List.mem_cons.mp hm with rfl | hm
  · exact plain_ofRPL (by decide) _
  · obtain ⟨cl, -, rfl⟩ := List.mem_map.mp hm
    exact plain_ofRPL (by decide) _

end handlers

/-- No handler welcomes anybody. -/
theorem cmds_quiet {cmd : Bytes} {item : CmdItem} (h : cmds.lookup cmd = some item) (fd : Fd)
    (argv : List Bytes) : Quiet (item.fp fd argv) :=
  cmds_cases (P := fun _ fp => Quiet (fp fd argv)) (quiet_nick fd argv) (quiet_user fd argv)
    (quiet_quit fd argv) (quiet_join fd argv) (quiet_part fd argv) (quiet_topic fd argv)
    (quiet_names fd argv) (quiet_list fd argv) (quiet_privmsg fd argv) (quiet_ping fd argv)
    (quiet_users fd argv) h

end Mircd
