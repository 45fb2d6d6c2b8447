/-
# The delivery of a message to a channel

Who should get a message is a matter of history: the connections that have joined the channel
since they connected and have not parted from it.  The code sends to the keys of the channel's
`users`.  By `Membership` the two are the same as long as clients leave their channels before
they are removed.

* `onChannel` : membership read off the history;
* `onChannel_iff` : it is what the clients' own records say, in every run;
* `runCall_privmsg` : what `PRIVMSG` sends;
* `privmsg_exact` : every other member by history gets the message exactly once, and no one else
  gets anything;
* `message_to_stranger` : without the condition a connection that has joined nothing may get it.
-/
import IntroNP.MircdMembership

namespace Mircd

open Machine

/-! ## Membership by history -/

/-- The connection under a file descriptor has joined the channel since it connected and has not
parted from it, by the history of a run (newest first). -/
def onChannel : List (Moment Database Event Shown) → Fd → Bytes → Bool
  | [], _, _ => false
  | m :: past, fd, name =>
      match m.event, m.shown.outcome with
      | .clientAdd f _ _, _ => if f = fd then false else onChannel past fd name
      | .clientDel f, _ => if f = fd then false else onChannel past fd name
      | .call f (cmd :: n :: _), .done =>
          if f = fd ∧ n = name ∧ cmd = ascii "JOIN" then true
          else if f = fd ∧ n = name ∧ cmd = ascii "PART" then false
          else onChannel past fd name
      | _, _ => onChannel past fd name

section records

variable {db db' : Database} {fd f : Fd} {n : Bytes}

/-- The record of a client depends on its channels only. -/
theorem isMember_congr (h : ∀ f, (db'.clients.lookup f).map Client.channels
    = (db.clients.lookup f).map Client.channels) : db'.IsMember f n ↔ db.IsMember f n := by
  have hiff : ∀ d : Database, d.IsMember f n ↔
      ∃ names, (d.clients.lookup f).map Client.channels = some names ∧ n ∈ names := by
    intro d
    simp only [Database.IsMember, Option.map_eq_some_iff]
    constructor
    · rintro ⟨cl, hcl, hn⟩
      exact ⟨_, ⟨cl, hcl, rfl⟩, hn⟩
    · rintro ⟨_, ⟨cl, hcl, rfl⟩, hn⟩
      exact ⟨cl, hcl, hn⟩
  rw [hiff, hiff, h]

theorem isMember_setClient {g : Client → Client} (hchannels : ∀ cl, (g cl).channels = cl.channels) :
    (db.setClient fd g).IsMember f n ↔ db.IsMember f n := by
  refine isMember_congr fun f => ?_
  rw [lookup_setClient]
  split_ifs
  · rw [Option.map_map]
    congr 1
    exact funext hchannels
  · rfl

/-- The handlers change the records of `fd` only: `JOIN` adds the channel, `PART` removes it. -/
theorem isMember_returned {cmd : Bytes} {args : List Bytes} (h : Returned fd db cmd args db') :
    db'.IsMember f n ↔
      if fd = f ∧ args.head? = some n ∧ cmd = ascii "JOIN" then True
      else if fd = f ∧ args.head? = some n ∧ cmd = ascii "PART" then False
      else db.IsMember f n := by
  have hother : ∀ word, word ≠ ascii "JOIN" → word ≠ ascii "PART" →
      (if fd = f ∧ args.head? = some n ∧ word = ascii "JOIN" then True
        else if fd = f ∧ args.head? = some n ∧ word = ascii "PART" then False
        else db.IsMember f n) = db.IsMember f n := by
    intro word hjoin hpart
    rw [if_neg (fun hc => hjoin hc.2.2), if_neg (fun hc => hpart hc.2.2)]
  cases h with
  | @nick nickname rest client hclient hfree hvalid =>
      rw [hother _ (by decide) (by decide)]
      exact isMember_setClient (g := Client.setNick nickname) (fun _ => rfl)
  | user username hostname servername realname =>
      rw [hother _ (by decide) (by decide)]
      exact isMember_setClient (g := Client.setUser username hostname servername realname)
        (fun _ => rfl)
  | @join name rest db₁ client hchannel hclient =>
      rw [← (getchannel_frame hchannel).1] at hclient
      rw [← memberRef_isSome, memberRef_join hclient]
      have hold : (db₁.memberRef n f).isSome ↔ db.IsMember f n := by
        rw [memberRef_isSome, Database.IsMember, (getchannel_frame hchannel).1, Database.IsMember]
      by_cases hhit : f = fd ∧ n = name
      · obtain ⟨rfl, rfl⟩ := hhit
        simp
      · have hmiss : ¬ (fd = f ∧ (name :: rest).head? = some n) := by
          rintro ⟨rfl, hn⟩
          exact hhit ⟨rfl, (Option.some.inj hn).symm⟩
        rw [if_neg hhit, hold, if_neg (fun hc => hmiss ⟨hc.1, hc.2.1⟩),
          if_neg (fun hc => hmiss ⟨hc.1, hc.2.1⟩)]
  | @part name rest client channel ref hclient hin hchannel href =>
      have hword : ascii "PART" ≠ ascii "JOIN" := by decide
      rw [← memberRef_isSome, memberRef_part]
      simp only [hword, and_false, if_false, and_true]
      by_cases hhit : f = fd ∧ n = name
      · obtain ⟨rfl, rfl⟩ := hhit
        simp
      · have hmiss : ¬ (fd = f ∧ (name :: rest).head? = some n) := by
          rintro ⟨rfl, hn⟩
          exact hhit ⟨rfl, (Option.some.inj hn).symm⟩
        rw [if_neg hhit, memberRef_isSome, if_neg hmiss]
  | topic => rw [hother _ (by decide) (by decide)]; exact Iff.rfl
  | @names name rest db₁ hchannel =>
      rw [hother _ (by decide) (by decide), Database.IsMember, (getchannel_frame hchannel).1,
        Database.IsMember]
  | same hjoin hpart => rw [hother _ hjoin hpart]

end records

/-- A command that does not return leaves the records as they were. -/
theorem isMember_of_throw {db db' : Database} {fd f : Fd} {argv : List Bytes} {shown : Shown}
    {n : Bytes} (hs : runCall db fd argv = some (db', shown)) (hthrow : shown.outcome ≠ .done) :
    db'.IsMember f n ↔ db.IsMember f n := by
  obtain ⟨cmd, args, e, -, hthrew, hdef, -⟩ := threw_of_runCall hs hthrow
  rw [Database.IsMember, (hthrew.frame hdef).1, Database.IsMember]

/-- In every run the history says who is on a channel exactly as the clients' records do. -/
theorem onChannel_iff {past : List (Moment Database Event Shown)} {db : Database}
    (hrun : Run system past db) (f : Fd) (n : Bytes) :
    onChannel past f n = true ↔ db.IsMember f n := by
  refine hrun.history_invariant (C := fun _ _ => True)
    (I := fun past db => onChannel past f n = true ↔ db.IsMember f n) ?_ ?_ (fun _ _ => trivial)
  · simp [onChannel, Database.IsMember, system, Database.initial]
  · rintro past db a db' ⟨outcome, out⟩ - ih - hs
    cases next_iff_happens.mp hs with
    | @clientAdd fd info host hfree =>
        simp only [onChannel]
        rw [Database.IsMember, lookup_clientAdd hfree]
        by_cases hf : f = fd
        · subst hf
          simp [Client.new]
        · rw [if_neg hf, if_neg (Ne.symm hf)]
          exact ih
    | @clientDel fd =>
        simp only [onChannel]
        rw [Database.IsMember, lookup_clientDel]
        by_cases hf : f = fd
        · subst hf
          simp
        · rw [if_neg hf, if_neg (Ne.symm hf)]
          exact ih
    | @call fd argv _ _ hconn hs =>
        by_cases hdone : outcome = .done
        · subst hdone
          rcases called_of_runCall hs with ⟨rfl, rfl⟩ | ⟨cmd, args, db₁, rfl, hret, hdb⟩
          · exact ih
          · have hdb' : db'.IsMember f n ↔ db₁.IsMember f n := by
              rcases hdb with rfl | rfl
              · exact Iff.rfl
              · exact isMember_setClient regist_channels
            rw [hdb', isMember_returned hret]
            cases args with
            | nil => simpa [onChannel] using ih
            | cons name rest =>
                simp only [onChannel, List.head?_cons, Option.some.injEq]
                split_ifs <;> simp [ih]
        · rw [isMember_of_throw hs hdone, ← ih]
          have hskip : onChannel (⟨db, .call fd argv, ⟨outcome, out⟩⟩ :: past) f n
              = onChannel past f n := by
            rcases argv with _ | ⟨cmd, _ | ⟨name, rest⟩⟩ <;> cases outcome <;>
              first | rfl | exact absurd rfl hdone
          rw [hskip]

/-! ## The message -/

/-- The line delivered to the members of a channel. -/
def privmsgLine (nickname name text : Bytes) : Bytes :=
  ascii ":" ++ nickname ++ ascii " PRIVMSG " ++ name ++ ascii " :" ++ text ++ ascii "\n"

/-- What `PRIVMSG` of a registered client to an existing channel does: it sends the line to
every user of the channel but the sender, and changes nothing. -/
theorem runCall_privmsg {db : Database} {fd : Fd} {client : Client} {channel : Channel}
    {name text : Bytes} {rest : List Bytes} (hclient : db.clients.lookup fd = some client)
    (hregist : client.hasRegist = true) (hchannel : db.channels.lookup name = some channel) :
    runCall db fd (ascii "PRIVMSG" :: name :: text :: rest) = some (db, ⟨.done,
      (channel.users.keys.filter (· ≠ fd)).map
        fun f => (f, privmsgLine client.nickname name text)⟩) := by
  have hitem : cmds.lookup (ascii "PRIVMSG") = some ⟨0, privmsg⟩ := rfl
  have hline : sendcmdsStr [.ofText "PRIVMSG" [name, text]] client.nickname
      = privmsgLine client.nickname name text := by
    have hword : ascii " PRIVMSG " = ascii " " ++ ascii "PRIVMSG" ++ ascii " " := rfl
    rw [privmsgLine, hword]
    simp [sendcmdsStr, CmdMsg.ofText, CmdMsg.render, renderArgv]
  have hends : call fd (ascii "PRIVMSG" :: name :: text :: rest) ⟨db, []⟩
      = .ok ⟨⟩ ⟨db, (channel.users.keys.filter (· ≠ fd)).map
          fun f => (f, privmsgLine client.nickname name text)⟩ := by
    refine eq_ok_of_ends ?_
    rw [call, hitem]
    simp [getuser, privmsg, broadcast, hclient, hregist, hchannel, hline, World.send]
  rw [runCall, hends]

/-- The copies for one receiver among one copy for each of several distinct receivers. -/
theorem filter_copies {fds : List Fd} (hnodup : fds.Nodup) (line : Bytes) (f : Fd) :
    (fds.map fun g => (g, line)).filter (fun e => e.1 = f) = if f ∈ fds then [(f, line)] else [] := by
  have hcomp : ((fun e : Sent => decide (e.1 = f)) ∘ fun g => (g, line)) = fun g => g == f := by
    funext g
    rfl
  rw [List.filter_map, hcomp, List.filter_beq, List.map_replicate, hnodup.count]
  split_ifs <;> rfl

/-- In every run in which clients are removed only when they are on no channel, a `PRIVMSG` of a
registered client to an existing channel sends the line exactly once to every other connection
that has joined the channel since it connected and has not parted from it, and nothing to any
other connection. -/
theorem privmsg_exact {past : List (Moment Database Event Shown)} {db : Database}
    (hrun : Run system past db) (hC : ∀ m ∈ past, LeavesFirst m.pre m.event) {fd : Fd}
    {client : Client} {name : Bytes} (hclient : db.clients.lookup fd = some client)
    (hregist : client.hasRegist = true) (hchannel : name ∈ db.channels) (text : Bytes)
    (rest : List Bytes) :
    ∃ shown, next db (.call fd (ascii "PRIVMSG" :: name :: text :: rest)) = some (db, shown) ∧
      shown.outcome = .done ∧
      ∀ f, shown.sent.filter (fun e => e.1 = f)
        = if f ≠ fd ∧ onChannel past f name = true
          then [(f, privmsgLine client.nickname name text)] else [] := by
  obtain ⟨channel, hchannel⟩ := Table.mem_iff_lookup.mp hchannel
  have hmember : Membership db := hrun.invariant membership_initial
    (fun _ _ _ _ h hCa hs => membership_next h hCa hs) hC
  have hconn : fd ∈ db.clients := Table.mem_of_lookup hclient
  refine ⟨_, by rw [next, if_pos hconn, runCall_privmsg hclient hregist hchannel], rfl,
    fun f => ?_⟩
  rw [filter_copies (channel.users.keys_nodup.filter _)]
  have hiff : f ∈ channel.users.keys.filter (· ≠ fd) ↔
      f ≠ fd ∧ onChannel past f name = true := by
    rw [onChannel_iff hrun, ← hmember.mem_users hchannel, AList.mem_keys, List.mem_filter,
      decide_eq_true_eq, and_comm]
  simp only [hiff]

/-- Two clients, one of them on a channel to which the other one writes. -/
theorem privmsg_exact_two : ∃ past db shown, Run system past db ∧
    next db (.call 5 [ascii "PRIVMSG", ascii "#c", ascii "hi"]) = some (db, shown) ∧
    shown.sent.filter (fun e => e.1 = 4) = [(4, ascii ":bob PRIVMSG #c :hi\n")] := by
  obtain ⟨past, db, hrun, htest⟩ := exists_run_of_replay system
    (register 4 "alice" ++ [.call 4 [ascii "JOIN", ascii "#c"]] ++ register 5 "bob")
    (fun r => r.1.all (fun m => decide (LeavesFirst m.pre m.event)) &&
      ((r.2.clients.lookup 5).any fun cl => cl.hasRegist && cl.nickname = ascii "bob") &&
      decide (ascii "#c" ∈ r.2.channels) && onChannel r.1 4 (ascii "#c")) (by decide +kernel)
  simp only [Bool.and_eq_true, List.all_eq_true, Option.any_eq_true, decide_eq_true_eq] at htest
  obtain ⟨⟨⟨hC, cl, hcl, hregist, hnick⟩, hchannel⟩, hon⟩ := htest
  obtain ⟨shown, hs, -, hsent⟩ := privmsg_exact hrun hC hcl hregist hchannel (ascii "hi") []
  refine ⟨past, db, shown, hrun, hs, ?_⟩
  rw [hsent 4, if_pos ⟨by decide, hon⟩, hnick]
  rfl

/-- A run in which the file descriptor of a client that has left is used again: the message goes
to the new connection, which has joined nothing. -/
theorem message_to_stranger : ∃ past db shown, Run system past db ∧
    onChannel past 4 (ascii "#c") = false ∧ 4 ∈ db.clients ∧
    next db (.call 5 [ascii "PRIVMSG", ascii "#c", ascii "hi"]) = some (db, shown) ∧
    (4, ascii ":bob PRIVMSG #c :hi\n") ∈ shown.sent := by
  obtain ⟨past, db, hrun, htest⟩ := exists_run_of_replay system
    (register 4 "alice" ++ [.call 4 [ascii "JOIN", ascii "#c"], .clientDel 4] ++
      register 4 "carol" ++ register 5 "bob")
    (fun r => !onChannel r.1 4 (ascii "#c") && decide (4 ∈ r.2.clients) &&
      ((r.2.clients.lookup 5).any fun cl => cl.hasRegist && cl.nickname = ascii "bob") &&
      ((r.2.channels.lookup (ascii "#c")).any fun c : Channel => decide (4 ∈ c.users)))
    (by decide +kernel)
  simp only [Bool.and_eq_true, Bool.not_eq_true', Option.any_eq_true, decide_eq_true_eq] at htest
  obtain ⟨⟨⟨hoff, hconn⟩, cl, hcl, hregist, hnick⟩, channel, hchannel, hin⟩ := htest
  have hconn₅ : 5 ∈ db.clients := Table.mem_of_lookup hcl
  refine ⟨past, db, _, hrun, hoff, hconn, by
    rw [next, if_pos hconn₅, runCall_privmsg hcl hregist hchannel], ?_⟩
  refine List.mem_map.mpr ⟨4, List.mem_filter.mpr ⟨AList.mem_keys.mp hin, by decide⟩, ?_⟩
  rw [hnick]
  rfl

end Mircd
