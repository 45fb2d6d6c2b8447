/-
# The nickname table

`nick` edits the table before `changeNick` looks at the new nickname, so a rejected nickname
stays in the table and an old one disappears from it.  As long as every nickname that is not in
use is one `changeNick` accepts, the table is exact.

* `NickTable` : the table is the inverse of the clients' nicknames;
* `nickTable_next` : every step keeps it, if no new nickname is rejected;
* `nickTable_exact` : the invariant of the runs whose steps all meet that condition, and what
  it says about equal nicknames and collisions;
* `nickname_twice` : a run in which two clients end up with one nickname;
* `errors_atomic_iff` : the commands whose error replies leave the database as it was.
-/
import IntroNP.MircdEffects

namespace Mircd

open Machine

/-! ## The invariant -/

/-- The table maps the nickname of each client that has one to that client, and nothing else;
only a client without the NICK bit has the empty nickname. -/
structure NickTable (db : Database) : Prop where
  /-- The table is exact. -/
  table : ∀ nick ref, db.nickMp.lookup nick = some ref ↔
    ∃ f cl, db.clients.lookup f = some cl ∧ cl.hasNick = true ∧ cl.nickname = nick ∧
      ref = ⟨f, cl.id⟩
  /-- The NICK bit says whether there is a nickname. -/
  named : ∀ f cl, db.clients.lookup f = some cl → (cl.hasNick = true ↔ cl.nickname ≠ [])

theorem nickTable_initial : NickTable Database.initial where
  table := by
    intro nick ref
    constructor
    · rintro ⟨⟩
    · rintro ⟨f, cl, ⟨⟩, -⟩
  named := by rintro f cl ⟨⟩

/-- Two clients never have the same nickname. -/
theorem NickTable.unique {db : Database} (h : NickTable db) {f f' : Fd} {cl cl' : Client}
    (hcl : db.clients.lookup f = some cl) (hcl' : db.clients.lookup f' = some cl')
    (hnick : cl.hasNick = true) (hsame : cl.nickname = cl'.nickname) : f = f' := by
  have hnick' : cl'.hasNick = true := by
    rw [h.named f' cl' hcl', ← hsame]
    exact (h.named f cl hcl).mp hnick
  have href := (h.table cl.nickname ⟨f, cl.id⟩).mpr ⟨f, cl, hcl, hnick, rfl, rfl⟩
  have href' := (h.table cl.nickname ⟨f', cl'.id⟩).mpr ⟨f', cl', hcl', hnick', hsame.symm, rfl⟩
  rw [href, Option.some.injEq, ClientRef.mk.injEq] at href'
  exact href'.1

/-- A nickname in the table belongs to a client. -/
theorem NickTable.owner {db : Database} (h : NickTable db) {nick : Bytes}
    (hin : nick ∈ db.nickMp) :
    ∃ f cl, db.clients.lookup f = some cl ∧ cl.hasNick = true ∧ cl.nickname = nick := by
  obtain ⟨ref, href⟩ := Table.mem_iff_lookup.mp hin
  obtain ⟨f, cl, hcl, hnick, hname, -⟩ := (h.table nick ref).mp href
  exact ⟨f, cl, hcl, hnick, hname⟩

/-! ## Steps -/

/-- The condition on a step: a nickname that is not in use is one `changeNick` accepts. -/
def NickAccepted (db : Database) : Event → Prop
  | .call _ (cmd :: nick :: _) =>
      cmd = ascii "NICK" → nick ∈ db.nickMp ∨ validNick nick = true
  | _ => True

instance (db : Database) (a : Event) : Decidable (NickAccepted db a) := by
  unfold NickAccepted
  split <;> infer_instance

section steps

variable {db db' : Database} {fd : Fd}

/-- The table depends on the identity, the NICK bit and the nickname of each client. -/
theorem NickTable.congr (h : NickTable db) (hnickMp : db'.nickMp = db.nickMp)
    (hclients : ∀ f, (db'.clients.lookup f).map (fun cl => (cl.id, cl.hasNick, cl.nickname))
      = (db.clients.lookup f).map (fun cl => (cl.id, cl.hasNick, cl.nickname))) :
    NickTable db' := by
  have hback : ∀ f cl', db'.clients.lookup f = some cl' → ∃ cl, db.clients.lookup f = some cl ∧
      cl'.id = cl.id ∧ cl'.hasNick = cl.hasNick ∧ cl'.nickname = cl.nickname := by
    intro f cl' hcl'
    have heq := hclients f
    rw [hcl', Option.map_some, eq_comm, Option.map_eq_some_iff] at heq
    obtain ⟨cl, hcl, heq⟩ := heq
    simp only [Prod.mk.injEq] at heq
    exact ⟨cl, hcl, heq.1.symm, heq.2.1.symm, heq.2.2.symm⟩
  have hforth : ∀ f cl, db.clients.lookup f = some cl → ∃ cl', db'.clients.lookup f = some cl' ∧
      cl'.id = cl.id ∧ cl'.hasNick = cl.hasNick ∧ cl'.nickname = cl.nickname := by
    intro f cl hcl
    have heq := hclients f
    rw [hcl, Option.map_some, Option.map_eq_some_iff] at heq
    obtain ⟨cl', hcl', heq⟩ := heq
    simp only [Prod.mk.injEq] at heq
    exact ⟨cl', hcl', heq⟩
  constructor
  · intro nick ref
    rw [hnickMp, h.table]
    constructor
    · rintro ⟨f, cl, hcl, hnick, hname, rfl⟩
      obtain ⟨cl', hcl', hid, hhas, hnickname⟩ := hforth f cl hcl
      exact ⟨f, cl', hcl', by rw [hhas, hnick], by rw [hnickname, hname], by rw [hid]⟩
    · rintro ⟨f, cl', hcl', hnick, hname, rfl⟩
      obtain ⟨cl, hcl, hid, hhas, hnickname⟩ := hback f cl' hcl'
      exact ⟨f, cl, hcl, by rw [← hhas, hnick], by rw [← hnickname, hname], by rw [hid]⟩
  · intro f cl' hcl'
    obtain ⟨cl, hcl, -, hhas, hnickname⟩ := hback f cl' hcl'
    rw [hhas, hnickname]
    exact h.named f cl hcl

/-- A change of a client that keeps its identity and its nickname. -/
theorem NickTable.setClient (h : NickTable db) (fd : Fd) {g : Client → Client}
    (hid : ∀ cl, (g cl).id = cl.id) (hhas : ∀ cl, (g cl).hasNick = cl.hasNick)
    (hname : ∀ cl, (g cl).nickname = cl.nickname) : NickTable (db.setClient fd g) := by
  refine h.congr rfl fun f => ?_
  rw [lookup_setClient]
  split_ifs
  · cases db.clients.lookup f <;> simp [hid, hhas, hname]
  · rfl

/-- The table after the edit: the new nickname is there, and the old one is not. -/
theorem lookup_rename {nick : Bytes} (hfree : nick ∉ db.nickMp) (fd : Fd) (client : Client)
    (x : Bytes) : (db.rename fd client nick).nickMp.lookup x
      = if x = nick then some ⟨fd, client.id⟩
        else if client.hasNick = true ∧ x = client.nickname then none else db.nickMp.lookup x := by
  have hfree' : nick ∉ (if client.hasNick = true then db.nickMp.erase client.nickname
      else db.nickMp) := by
    split_ifs
    · rw [AList.mem_erase]
      exact fun hin => hfree hin.2
    · exact hfree
  rw [Database.rename, Table.lookup_emplace]
  by_cases hx : x = nick
  · rw [if_pos ⟨hx, hfree'⟩, if_pos hx]
  · rw [if_neg (fun hc => hx hc.1), if_neg hx]
    by_cases hhas : client.hasNick = true
    · rw [if_pos hhas, Table.lookup_erase']
      simp [hhas]
    · rw [if_neg hhas, if_neg (fun hc => hhas hc.1)]

/-- A nickname that is free and accepted. -/
theorem NickTable.nick (h : NickTable db) {client : Client} {nick : Bytes}
    (hclient : db.clients.lookup fd = some client) (hfree : nick ∉ db.nickMp)
    (hvalid : validNick nick = true) :
    NickTable ((db.rename fd client nick).setClient fd (Client.setNick nick)) := by
  have hne : nick ≠ [] := by
    rintro rfl
    cases hvalid
  have hclients : ∀ f, ((db.rename fd client nick).setClient fd (Client.setNick nick)).clients.lookup f
      = if f = fd then some (client.setNick nick) else db.clients.lookup f := by
    intro f
    rw [lookup_setClient]
    by_cases hf : f = fd
    · subst hf
      rw [if_pos rfl, if_pos rfl, Database.rename, hclient, Option.map_some]
    · rw [if_neg hf, if_neg hf, Database.rename]
  constructor
  · intro x ref
    rw [setClient_nickMp, lookup_rename hfree]
    constructor
    · intro href
      split_ifs at href with hx hold
      · cases href
        exact ⟨fd, client.setNick nick, by rw [hclients, if_pos rfl], rfl, hx.symm, rfl⟩
      · obtain ⟨f, cl, hcl, hhas, hname, rfl⟩ := (h.table x ref).mp href
        have hf : f ≠ fd := by
          rintro rfl
          rw [hclient, Option.some.injEq] at hcl
          subst hcl
          exact hold ⟨hhas, hname.symm⟩
        exact ⟨f, cl, by rw [hclients, if_neg hf, hcl], hhas, hname, rfl⟩
    · rintro ⟨f, cl, hcl, hhas, hname, rfl⟩
      rw [hclients] at hcl
      split_ifs at hcl with hf
      · cases hcl
        have hx : x = nick := hname.symm
        rw [if_pos hx, hf]
        rfl
      · have hx : x ≠ nick := by
          rintro rfl
          refine hfree (AList.lookup_isSome.mp ?_)
          rw [(h.table x ⟨f, cl.id⟩).mpr ⟨f, cl, hcl, hhas, hname, rfl⟩]
          rfl
        have hold : ¬ (client.hasNick = true ∧ x = client.nickname) := by
          rintro ⟨hhas', hx'⟩
          exact hf (h.unique hcl hclient hhas (by rw [hname, hx']))
        rw [if_neg hx, if_neg hold]
        exact (h.table x _).mpr ⟨f, cl, hcl, hhas, hname, rfl⟩
  · intro f cl hcl
    rw [hclients] at hcl
    split_ifs at hcl with hf
    · cases hcl
      exact ⟨fun _ => hne, fun _ => rfl⟩
    · exact h.named f cl hcl

theorem NickTable.returned (h : NickTable db) {cmd : Bytes} {args : List Bytes}
    (hret : Returned fd db cmd args db') : NickTable db' := by
  cases hret with
  | nick hclient hfree hvalid => exact h.nick hclient hfree hvalid
  | user => exact h.setClient fd (fun _ => rfl) (fun _ => rfl) (fun _ => rfl)
  | @join name rest db₁ client hchannel hclient =>
      obtain ⟨hclients, hnickMp⟩ := getchannel_frame hchannel
      have h₁ : NickTable db₁ := h.congr hnickMp (fun f => by rw [hclients])
      have h₂ : NickTable (db₁.setClient fd (Client.join name)) :=
        h₁.setClient fd (fun _ => rfl) (fun _ => rfl) (fun _ => rfl)
      exact h₂.congr rfl (fun _ => rfl)
  | @part name =>
      have h₁ : NickTable (db.setClient fd (Client.part name)) :=
        h.setClient fd (fun _ => rfl) (fun _ => rfl) (fun _ => rfl)
      exact h₁.congr rfl (fun _ => rfl)
  | topic => exact h.congr rfl (fun _ => rfl)
  | names hchannel =>
      obtain ⟨hclients, hnickMp⟩ := getchannel_frame hchannel
      exact h.congr hnickMp (fun f => by rw [hclients])
  | same => exact h

/-- A command whose new nickname is accepted. -/
theorem NickTable.call (h : NickTable db) {argv : List Bytes} {shown : Shown}
    (hC : NickAccepted db (.call fd argv)) (hs : runCall db fd argv = some (db', shown)) :
    NickTable db' := by
  obtain ⟨outcome, out⟩ := shown
  by_cases hdone : outcome = .done
  · subst hdone
    rcases called_of_runCall hs with ⟨-, rfl⟩ | ⟨cmd, args, db₁, -, hret, rfl | rfl⟩
    · exact h
    · exact h.returned hret
    · exact (h.returned hret).setClient fd regist_id regist_hasNick regist_nickname
  · obtain ⟨cmd, args, e, rfl, hthrew, hdef, -⟩ := threw_of_runCall hs hdone
    cases hthrew with
    | invalid hclient hfree hinvalid =>
        rcases hC rfl with hin | hvalid
        · exact absurd hin hfree
        · rw [hinvalid] at hvalid
          cases hvalid
    | collision => exact h
    | other => exact h
    | undefined => exact absurd rfl hdef

/-- A new client has no nickname. -/
theorem NickTable.clientAdd (h : NickTable db) (hfree : fd ∉ db.clients) (info host : Bytes) :
    NickTable (db.clientAdd fd info host) := by
  have hold : ∀ f cl, (db.clientAdd fd info host).clients.lookup f = some cl →
      cl = Client.new db.created info host ∨ db.clients.lookup f = some cl := by
    intro f cl hcl
    rw [lookup_clientAdd hfree] at hcl
    split_ifs at hcl with hf
    · cases hcl
      exact Or.inl rfl
    · exact Or.inr hcl
  constructor
  · intro nick ref
    rw [Database.clientAdd, h.table]
    constructor
    · rintro ⟨f, cl, hcl, hhas, hname, rfl⟩
      have hf : f ≠ fd := by
        rintro rfl
        rw [AList.lookup_eq_none.mpr hfree] at hcl
        cases hcl
      exact ⟨f, cl, by rw [← Database.clientAdd, lookup_clientAdd hfree, if_neg hf, hcl], hhas,
        hname, rfl⟩
    · rintro ⟨f, cl, hcl, hhas, hname, rfl⟩
      rcases hold f cl hcl with rfl | hcl
      · cases hhas
      · exact ⟨f, cl, hcl, hhas, hname, rfl⟩
  · intro f cl hcl
    rcases hold f cl hcl with rfl | hcl
    · exact ⟨by rintro ⟨⟩, fun hne => absurd rfl hne⟩
    · exact h.named f cl hcl

/-- A removed client takes its nickname with it. -/
theorem NickTable.clientDel (h : NickTable db) (fd : Fd) : NickTable (db.clientDel fd) := by
  unfold Database.clientDel
  cases hfd : db.clients.lookup fd with
  | none => exact h
  | some client =>
      constructor
      · intro nick ref
        dsimp only
        rw [Table.lookup_erase']
        constructor
        · intro href
          split_ifs at href with hx
          obtain ⟨f, cl, hcl, hhas, hname, rfl⟩ := (h.table nick ref).mp href
          have hf : f ≠ fd := by
            rintro rfl
            rw [hfd, Option.some.injEq] at hcl
            subst hcl
            exact hx hname.symm
          exact ⟨f, cl, by rw [Table.lookup_erase', if_neg hf, hcl], hhas, hname, rfl⟩
        · rintro ⟨f, cl, hcl, hhas, hname, rfl⟩
          rw [Table.lookup_erase'] at hcl
          split_ifs at hcl with hf
          have hx : nick ≠ client.nickname := by
            rintro rfl
            exact hf (h.unique hcl hfd hhas hname)
          rw [if_neg hx]
          exact (h.table nick _).mpr ⟨f, cl, hcl, hhas, hname, rfl⟩
      · intro f cl hcl
        dsimp only at hcl
        rw [Table.lookup_erase'] at hcl
        split_ifs at hcl with hf
        exact h.named f cl hcl

/-- Every step that meets the condition keeps the invariant. -/
theorem nickTable_next (h : NickTable db) {a : Event} {shown : Shown} (hC : NickAccepted db a)
    (hs : next db a = some (db', shown)) : NickTable db' := by
  cases next_iff_happens.mp hs with
  | clientAdd hfree => exact h.clientAdd hfree _ _
  | call hconn hcall => exact h.call hC hcall
  | clientDel => exact h.clientDel _

end steps

/-! ## Runs -/

/-- In every run in which no new nickname is rejected, the table is exactly the map from the
nicknames of the clients with the NICK bit to these clients; no two of them have the same
nickname; and a nickname is reported as colliding only when a connected client is using it. -/
theorem nickTable_exact {past : List (Moment Database Event Shown)} {db : Database}
    (hrun : Run system past db) (hC : ∀ m ∈ past, NickAccepted m.pre m.event) :
    (∀ nick ref, db.nickMp.lookup nick = some ref ↔
      ∃ f cl, db.clients.lookup f = some cl ∧ cl.hasNick = true ∧ cl.nickname = nick ∧
        ref = ⟨f, cl.id⟩) ∧
    (∀ f f' cl cl', db.clients.lookup f = some cl → db.clients.lookup f' = some cl' →
      cl.hasNick = true → cl'.hasNick = true → cl.nickname = cl'.nickname → f = f') ∧
    (∀ fd argv db' shown args, next db (.call fd argv) = some (db', shown) →
      shown.outcome = .cmdMsg (.ofERR .NICKCOLLISION args) →
      ∃ nick rest, argv = ascii "NICK" :: nick :: rest ∧
        ∃ f cl, db.clients.lookup f = some cl ∧ cl.hasNick = true ∧ cl.nickname = nick) := by
  have h : NickTable db := hrun.invariant nickTable_initial
    (fun _ _ _ _ h hCa hs => nickTable_next h hCa hs) hC
  refine ⟨h.table, fun f f' cl cl' hcl hcl' hnick _ hsame => h.unique hcl hcl' hnick hsame, ?_⟩
  intro fd argv db' shown args hs houtcome
  simp only [next] at hs
  split_ifs at hs with hconn
  obtain ⟨cmd, cargs, e, rfl, hthrew, -, hmsg⟩ :=
    threw_of_runCall hs (by rw [houtcome]; simp)
  have he := hmsg _ houtcome
  subst he
  generalize hexn : Exn.cmdMsg (.ofERR .NICKCOLLISION args) = e at hthrew
  cases hthrew with
  | invalid => cases hexn
  | collision hused => exact ⟨_, _, rfl, h.owner hused⟩
  | other hother => exact absurd hexn.symm (hother args)
  | undefined => cases hexn

/-- Two clients choose nicknames, the second one first tries that of the first. -/
theorem nickTable_exact_two : ∃ past db, Run system past db ∧
    ∃ f cl, db.clients.lookup f = some cl ∧ cl.hasNick = true ∧ cl.nickname = ascii "alice" := by
  obtain ⟨past, db, hrun, htest⟩ := exists_run_of_replay system
    [.clientAdd 4 [] [], .call 4 [ascii "NICK", ascii "alice"], .clientAdd 5 [] [],
      .call 5 [ascii "NICK", ascii "alice"], .call 5 [ascii "NICK", ascii "bob"]]
    (fun r => r.1.all (fun m => decide (NickAccepted m.pre m.event)) &&
      (r.2.nickMp.lookup (ascii "alice")).isSome) (by decide +kernel)
  rw [Bool.and_eq_true, List.all_eq_true] at htest
  obtain ⟨hC, hsome⟩ := htest
  obtain ⟨ref, href⟩ := Option.isSome_iff_exists.mp hsome
  obtain ⟨f, cl, hcl, hnick, hname, -⟩ :=
    ((nickTable_exact hrun (fun m hm => of_decide_eq_true (hC m hm))).1 _ ref).mp href
  exact ⟨past, db, hrun, f, cl, hcl, hnick, hname⟩

/-- A run in which a client with a nickname asks for a bad one: it keeps its nickname, which is
free for another client, and the bad one stays in the table. -/
theorem nickname_twice : ∃ past db, Run system past db ∧
    (∃ cl cl', db.clients.lookup 4 = some cl ∧ db.clients.lookup 5 = some cl' ∧
      cl.hasNick = true ∧ cl'.hasNick = true ∧
      cl.nickname = ascii "alice" ∧ cl'.nickname = ascii "alice") ∧
    ascii "1bad" ∈ db.nickMp := by
  obtain ⟨past, db, hrun, htest⟩ := exists_run_of_replay system
    [.clientAdd 4 [] [], .call 4 [ascii "NICK", ascii "alice"],
      .call 4 [ascii "NICK", ascii "1bad"], .clientAdd 5 [] [],
      .call 5 [ascii "NICK", ascii "alice"]]
    (fun r => ((r.2.clients.lookup 4).any fun cl => cl.hasNick && cl.nickname = ascii "alice") &&
      ((r.2.clients.lookup 5).any fun cl => cl.hasNick && cl.nickname = ascii "alice") &&
      decide (ascii "1bad" ∈ r.2.nickMp)) (by decide +kernel)
  simp only [Bool.and_eq_true, Option.any_eq_true, decide_eq_true_eq] at htest
  obtain ⟨⟨⟨cl, hcl, hhas, hname⟩, cl', hcl', hhas', hname'⟩, hbad⟩ := htest
  exact ⟨past, db, hrun, ⟨cl, cl', hcl, hcl', hhas, hhas', hname, hname'⟩, hbad⟩

/-! ## Error replies -/

/-- A nickname that is rejected: the reply is thrown after the table has been edited. -/
theorem runCall_nick_rejected {db : Database} {fd : Fd} {client : Client} {nickname : Bytes}
    (rest : List Bytes) (hclient : db.clients.lookup fd = some client)
    (hfree : nickname ∉ db.nickMp) (hinvalid : validNick nickname = false) :
    runCall db fd (ascii "NICK" :: nickname :: rest) = some (db.rename fd client nickname,
      ⟨.cmdMsg (.ofERR .ERRONEUSNICKNAME [nickname, ascii "Erroneous nickname"]), []⟩) := by
  have hitem : cmds.lookup (ascii "NICK") = some ⟨0, nick⟩ := rfl
  have hallow : ascii "NICK" ∈ unregAllow := List.mem_cons_self
  have hinvalid' : (nickname.head?.any isAlpha) = false := hinvalid
  have hends : call fd (ascii "NICK" :: nickname :: rest) ⟨db, []⟩
      = .error (.cmdMsg (.ofERR .ERRONEUSNICKNAME [nickname, ascii "Erroneous nickname"]))
          ⟨db.rename fd client nickname, []⟩ := by
    apply result_of_ends (fun r => r = _)
    rw [call, hitem]
    simp [getuser, nick, changeNick, hclient, hfree, hallow, hinvalid', Database.rename,
      World.update]
  rw [runCall, hends]

/-- A command that asks for a rejected nickname. -/
theorem exists_rejected {db : Database} {fd : Fd} {argv : List Bytes}
    (hbad : ¬ NickAccepted db (.call fd argv)) :
    ∃ nickname rest, argv = ascii "NICK" :: nickname :: rest ∧ nickname ∉ db.nickMp ∧
      validNick nickname = false := by
  rcases argv with _ | ⟨cmd, _ | ⟨nickname, rest⟩⟩
  · exact absurd trivial hbad
  · exact absurd trivial hbad
  · rw [NickAccepted, Classical.not_imp, not_or, Bool.not_eq_true] at hbad
    obtain ⟨rfl, hfree, hinvalid⟩ := hbad
    exact ⟨nickname, rest, rfl, hfree, hinvalid⟩

/-- The nickname table after a rejected nickname is not the one before. -/
theorem rename_ne {db : Database} {nickname : Bytes} (hfree : nickname ∉ db.nickMp) (fd : Fd)
    (client : Client) : db.rename fd client nickname ≠ db := by
  intro hsame
  have hlook := lookup_rename hfree fd client nickname
  rw [hsame, AList.lookup_eq_none.mpr hfree, if_pos rfl] at hlook
  cases hlook

/-- A command of a connected client that ends with an error reply leaves the database as it was,
unless it asks for a nickname that is not in use and that `changeNick` does not accept. -/
theorem errors_atomic_iff {db : Database} {fd : Fd} (hconn : fd ∈ db.clients)
    (argv : List Bytes) :
    (∀ db' shown msg, next db (.call fd argv) = some (db', shown) →
        shown.outcome = .cmdMsg msg → db' = db) ↔
      NickAccepted db (.call fd argv) := by
  obtain ⟨client, hclient⟩ := Table.mem_iff_lookup.mp hconn
  simp only [next, if_pos hconn]
  constructor
  · intro hatomic
    by_contra hbad
    obtain ⟨nickname, rest, rfl, hfree, hinvalid⟩ := exists_rejected hbad
    exact rename_ne hfree fd client
      (hatomic _ _ _ (runCall_nick_rejected rest hclient hfree hinvalid) rfl)
  · intro hC db' shown msg hs hmsg
    obtain ⟨cmd, args, e, rfl, hthrew, hdef, -⟩ :=
      threw_of_runCall hs (by rw [hmsg]; simp)
    cases hthrew with
    | invalid _ hfree hinvalid =>
        rcases hC rfl with hin | hvalid
        · exact absurd hin hfree
        · rw [hinvalid] at hvalid
          cases hvalid
    | collision => rfl
    | other => rfl
    | undefined => exact absurd rfl hdef

/-- A registered client asks for a channel with a bad name: it gets an error, and nothing has
changed. -/
theorem errors_atomic_iff_join : ∃ past db shown, Run system past db ∧
    next db (.call 4 [ascii "JOIN", ascii "chat"]) = some (db, shown) ∧
    shown.outcome = .cmdMsg (.ofERR .NOSUCHCHANNEL [ascii "chat", ascii "No such channel"]) := by
  obtain ⟨past, db, hrun, htest⟩ := exists_run_of_replay system
    [.clientAdd 4 [] [], .call 4 [ascii "NICK", ascii "alice"],
      .call 4 [ascii "USER", ascii "u", ascii "h", ascii "s", ascii "r"]]
    (fun r => decide (4 ∈ r.2.clients) &&
      (next r.2 (.call 4 [ascii "JOIN", ascii "chat"])).any fun step => step.2.outcome =
        .cmdMsg (.ofERR .NOSUCHCHANNEL [ascii "chat", ascii "No such channel"]))
    (by decide +kernel)
  simp only [Bool.and_eq_true, Option.any_eq_true, decide_eq_true_eq] at htest
  obtain ⟨hconn, ⟨db', shown⟩, hs, hmsg⟩ := htest
  have hsame : db' = db := (errors_atomic_iff hconn [ascii "JOIN", ascii "chat"]).mpr
    (fun hcmd => absurd hcmd (by decide)) db' shown _ hs hmsg
  rw [hsame] at hs
  exact ⟨past, db, shown, hrun, hs, hmsg⟩

/-- A client asks for a bad nickname: it gets an error, and its own nickname has disappeared from
the table. -/
theorem error_not_atomic : ∃ past db db' shown, Run system past db ∧ 4 ∈ db.clients ∧
    next db (.call 4 [ascii "NICK", ascii "1bad"]) = some (db', shown) ∧
    shown.outcome =
      .cmdMsg (.ofERR .ERRONEUSNICKNAME [ascii "1bad", ascii "Erroneous nickname"]) ∧
    ascii "alice" ∈ db.nickMp ∧ ascii "alice" ∉ db'.nickMp ∧ db' ≠ db := by
  obtain ⟨past, db, hrun, htest⟩ := exists_run_of_replay system
    [.clientAdd 4 [] [], .call 4 [ascii "NICK", ascii "alice"]]
    (fun r => decide (4 ∈ r.2.clients) && decide (ascii "alice" ∈ r.2.nickMp) &&
      (next r.2 (.call 4 [ascii "NICK", ascii "1bad"])).any fun step : Database × Shown =>
        decide (step.2.outcome =
          .cmdMsg (.ofERR .ERRONEUSNICKNAME [ascii "1bad", ascii "Erroneous nickname"])) &&
        decide (ascii "alice" ∉ step.1.nickMp)) (by decide +kernel)
  simp only [Bool.and_eq_true, Option.any_eq_true, decide_eq_true_eq] at htest
  obtain ⟨⟨hconn, hold⟩, ⟨db', shown⟩, hs, hmsg, hnew⟩ := htest
  refine ⟨past, db, db', shown, hrun, hconn, hs, hmsg, hold, hnew, ?_⟩
  intro hsame
  rw [hsame] at hnew
  exact hnew hold

end Mircd
