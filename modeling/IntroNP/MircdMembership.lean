/-
# Who is on which channel

Membership is kept twice: in the `users` of a channel, by file descriptor with a reference, and
in the `channels` of a client, by name.  `client_del` removes the client and leaves the first
copy as it is, so the two agree only as long as clients leave their channels before they are
removed.

* `Membership` : the agreement of the two copies;
* `membership_next` : every step keeps it, if a client is removed only when it is on no channel;
* `membership_live` : the invariant of the runs whose steps all meet that condition;
* `stale_member` : a run in which a channel keeps a client that is gone.
-/
import IntroNP.MircdEffects

namespace Mircd

open Machine

/-! ## The invariant -/

/-- The reference a channel should hold under a file descriptor: to the client there, if it is
on the channel. -/
def Database.memberRef (db : Database) (name : Bytes) (fd : Fd) : Option ClientRef :=
  (db.clients.lookup fd).bind fun cl => if name ∈ cl.channels then some ⟨fd, cl.id⟩ else none

/-- The client under a file descriptor is on the channel, by its own record. -/
def Database.IsMember (db : Database) (fd : Fd) (name : Bytes) : Prop :=
  ∃ cl, db.clients.lookup fd = some cl ∧ name ∈ cl.channels

/-- The two records of membership agree. -/
structure Membership (db : Database) : Prop where
  /-- A channel stands under its name. -/
  named : ∀ n c, db.channels.lookup n = some c → c.name = n
  /-- The channels of a client exist. -/
  known : ∀ f cl, db.clients.lookup f = some cl → ∀ n ∈ cl.channels, n ∈ db.channels
  /-- The users of a channel are the clients that are on it. -/
  users : ∀ n c, db.channels.lookup n = some c → ∀ f, c.users.lookup f = db.memberRef n f

theorem memberRef_isSome {db : Database} {name : Bytes} {fd : Fd} :
    (db.memberRef name fd).isSome ↔ db.IsMember fd name := by
  unfold Database.memberRef Database.IsMember
  cases db.clients.lookup fd with
  | none => simp
  | some cl => by_cases h : name ∈ cl.channels <;> simp [h]

/-- The users of a channel, by file descriptor. -/
theorem Membership.mem_users {db : Database} (h : Membership db) {n : Bytes} {c : Channel}
    (hc : db.channels.lookup n = some c) (f : Fd) : f ∈ c.users ↔ db.IsMember f n := by
  rw [← AList.lookup_isSome, h.users n c hc, memberRef_isSome]

theorem membership_initial : Membership Database.initial where
  named := by rintro n c ⟨⟩
  known := by rintro f cl ⟨⟩
  users := by rintro n c ⟨⟩

/-! ## What the changes of the database do to it -/

section changes

variable {db db' : Database} {fd : Fd}

theorem memberRef_setClient (db : Database) (fd : Fd) {g : Client → Client} (name : Bytes)
    (hid : ∀ cl, (g cl).id = cl.id) (hchannels : ∀ cl, (g cl).channels = cl.channels) (f : Fd) :
    (db.setClient fd g).memberRef name f = db.memberRef name f := by
  unfold Database.memberRef
  rw [lookup_setClient]
  by_cases hf : f = fd
  · cases db.clients.lookup f <;> simp [hf, hid, hchannels]
  · rw [if_neg hf]

/-- The nickname table plays no part. -/
theorem Membership.congr (h : Membership db) (hclients : db'.clients = db.clients)
    (hchannels : db'.channels = db.channels) : Membership db' where
  named := by rw [hchannels]; exact h.named
  known := by rw [hchannels, hclients]; exact h.known
  users := by
    intro n c hc f
    rw [hchannels] at hc
    rw [h.users n c hc f, Database.memberRef, Database.memberRef, hclients]

/-- A change of a client that keeps its identity and its channels. -/
theorem Membership.setClient (h : Membership db) {g : Client → Client}
    (hid : ∀ cl, (g cl).id = cl.id) (hchannels : ∀ cl, (g cl).channels = cl.channels) :
    Membership (db.setClient fd g) where
  named := h.named
  known := by
    intro f cl hcl n hn
    rw [lookup_setClient] at hcl
    split_ifs at hcl with hf
    · obtain ⟨cl₀, hcl₀, rfl⟩ := Option.map_eq_some_iff.mp hcl
      rw [hchannels] at hn
      exact h.known f cl₀ hcl₀ n hn
    · exact h.known f cl hcl n hn
  users := by
    intro n c hc f
    rw [memberRef_setClient db fd n hid hchannels, h.users n c hc]

/-- A change of a topic. -/
theorem Membership.setTopic (h : Membership db) (name newTopic : Bytes) :
    Membership (db.setChannel name (Channel.setTopic newTopic)) := by
  have hlookup : ∀ n c, (db.setChannel name (Channel.setTopic newTopic)).channels.lookup n
      = some c → ∃ c', db.channels.lookup n = some c' ∧ c.name = c'.name ∧ c.users = c'.users := by
    intro n c hc
    rw [lookup_setChannel] at hc
    split_ifs at hc with hn
    · obtain ⟨c', hc', rfl⟩ := Option.map_eq_some_iff.mp hc
      exact ⟨c', hc', rfl, rfl⟩
    · exact ⟨c, hc, rfl, rfl⟩
  constructor
  · intro n c hc
    obtain ⟨c', hc', hname, -⟩ := hlookup n c hc
    rw [hname]
    exact h.named n c' hc'
  · intro f cl hcl n hn
    exact Table.mem_modify.mpr (h.known f cl hcl n hn)
  · intro n c hc f
    obtain ⟨c', hc', -, husers⟩ := hlookup n c hc
    rw [husers]
    exact h.users n c' hc' f

/-- The creation of a channel: nobody is on it. -/
theorem Membership.getchannel (h : Membership db) {name : Bytes}
    (hchannel : db.getchannel name = some db') : Membership db' := by
  obtain ⟨hclients, -⟩ := getchannel_frame hchannel
  have hlookup := lookup_getchannel hchannel
  have hsame : ∀ n c, db'.channels.lookup n = some c → db.channels.lookup n = some c ∨
      n = name ∧ name ∉ db.channels ∧ c.name = name ∧ c.users = ∅ := by
    intro n c hc
    by_cases hold : n ≠ name ∨ name ∈ db.channels
    · rw [(hlookup n).1 hold] at hc
      exact Or.inl hc
    · obtain ⟨hn, hnew⟩ := not_or.mp hold
      rw [not_not] at hn
      obtain ⟨c', hc', hname, husers⟩ := (hlookup n).2 hnew
      rw [hn, hc', Option.some.injEq] at hc
      subst hc
      exact Or.inr ⟨hn, hnew, hname, husers⟩
  constructor
  · intro n c hc
    rcases hsame n c hc with hc | ⟨rfl, -, hname, -⟩
    · exact h.named n c hc
    · exact hname
  · intro f cl hcl n hn
    rw [hclients] at hcl
    have hmem := h.known f cl hcl n hn
    by_cases hold : n ≠ name ∨ name ∈ db.channels
    · rw [← AList.lookup_isSome, (hlookup n).1 hold, AList.lookup_isSome]
      exact hmem
    · obtain ⟨hn, -⟩ := not_or.mp hold
      rw [not_not] at hn
      rw [hn]
      exact mem_getchannel hchannel
  · intro n c hc f
    have href : db'.memberRef n f = db.memberRef n f := by
      unfold Database.memberRef
      rw [hclients]
    rw [href]
    rcases hsame n c hc with hc | ⟨rfl, hnew, -, husers⟩
    · exact h.users n c hc f
    · rw [husers, AList.lookup_empty]
      by_contra hne
      have hsome : (db.memberRef n f).isSome := by
        rw [← Option.ne_none_iff_isSome]
        exact fun hnone => hne hnone.symm
      obtain ⟨cl, hcl, hn⟩ := memberRef_isSome.mp hsome
      exact hnew (h.known f cl hcl n hn)

theorem memberRef_join {client : Client} (hclient : db.clients.lookup fd = some client)
    (name n : Bytes) (f : Fd) :
    (db.joined fd client name).memberRef n f
      = if f = fd ∧ n = name then some ⟨fd, client.id⟩ else db.memberRef n f := by
  unfold Database.memberRef Database.joined
  rw [setChannel_clients, lookup_setClient]
  by_cases hf : f = fd
  · subst hf
    rw [if_pos rfl, hclient]
    by_cases hn : n = name <;> simp [Client.join, hn]
  · rw [if_neg hf, if_neg (fun hboth => hf hboth.1)]

/-- A client joins a channel. -/
theorem Membership.joined (h : Membership db) {client : Client} {name : Bytes}
    (hclient : db.clients.lookup fd = some client) (hmem : name ∈ db.channels) :
    Membership (db.joined fd client name) where
  named := by
    intro n c hc
    rw [Database.joined, lookup_setChannel, setClient_channels] at hc
    split_ifs at hc with hn
    · obtain ⟨c₀, hc₀, rfl⟩ := Option.map_eq_some_iff.mp hc
      exact h.named n c₀ hc₀
    · exact h.named n c hc
  known := by
    intro f cl hcl n hn
    refine Table.mem_modify.mpr ?_
    rw [Database.joined, setChannel_clients, lookup_setClient] at hcl
    split_ifs at hcl with hf
    · obtain ⟨cl₀, hcl₀, rfl⟩ := Option.map_eq_some_iff.mp hcl
      rcases Finset.mem_insert.mp hn with rfl | hn
      · exact hmem
      · exact h.known f cl₀ hcl₀ n hn
    · exact h.known f cl hcl n hn
  users := by
    intro n c hc f
    rw [memberRef_join hclient]
    rw [Database.joined, lookup_setChannel, setClient_channels] at hc
    split_ifs at hc with hn
    · subst hn
      obtain ⟨c₀, hc₀, rfl⟩ := Option.map_eq_some_iff.mp hc
      rw [Channel.addUser, Table.lookup_emplace, h.users n c₀ hc₀]
      by_cases hf : f = fd
      · subst hf
        have hiff := h.mem_users hc₀ f
        by_cases hin : n ∈ client.channels <;>
          simp [hiff, Database.IsMember, Database.memberRef, hclient, hin]
      · simp [hf]
    · rw [h.users n c hc, if_neg (fun hboth => hn hboth.2)]

theorem memberRef_part (db : Database) (fd : Fd) (name n : Bytes) (f : Fd) :
    (db.parted fd name).memberRef n f
      = if f = fd ∧ n = name then none else db.memberRef n f := by
  unfold Database.memberRef Database.parted
  rw [setChannel_clients, lookup_setClient]
  by_cases hf : f = fd
  · subst hf
    rw [if_pos rfl]
    by_cases hn : n = name <;> cases db.clients.lookup f <;> simp [Client.part, hn]
  · rw [if_neg hf, if_neg (fun hboth => hf hboth.1)]

/-- A client leaves a channel. -/
theorem Membership.parted (h : Membership db) (fd : Fd) (name : Bytes) :
    Membership (db.parted fd name) where
  named := by
    intro n c hc
    rw [Database.parted, lookup_setChannel, setClient_channels] at hc
    split_ifs at hc with hn
    · obtain ⟨c₀, hc₀, rfl⟩ := Option.map_eq_some_iff.mp hc
      exact h.named n c₀ hc₀
    · exact h.named n c hc
  known := by
    intro f cl hcl n hn
    refine Table.mem_modify.mpr ?_
    rw [Database.parted, setChannel_clients, lookup_setClient] at hcl
    split_ifs at hcl with hf
    · obtain ⟨cl₀, hcl₀, rfl⟩ := Option.map_eq_some_iff.mp hcl
      exact h.known f cl₀ hcl₀ n (Finset.mem_of_mem_erase hn)
    · exact h.known f cl hcl n hn
  users := by
    intro n c hc f
    rw [memberRef_part]
    rw [Database.parted, lookup_setChannel, setClient_channels] at hc
    split_ifs at hc with hn
    · subst hn
      obtain ⟨c₀, hc₀, rfl⟩ := Option.map_eq_some_iff.mp hc
      rw [Channel.delUser, Table.lookup_erase', h.users n c₀ hc₀]
      simp
    · rw [h.users n c hc, if_neg (fun hboth => hn hboth.2)]

end changes

/-! ## Steps -/

/-- The condition on a step: a client is removed only when it is on no channel. -/
def LeavesFirst (db : Database) : Event → Prop
  | .clientDel fd => ∀ cl ∈ db.clients.lookup fd, cl.channels = ∅
  | _ => True

instance (db : Database) (a : Event) : Decidable (LeavesFirst db a) :=
  match a with
  | .clientAdd .. => .isTrue trivial
  | .call .. => .isTrue trivial
  | .clientDel fd => match h : db.clients.lookup fd with
    | none => .isTrue (by rintro cl hcl; rw [h] at hcl; cases hcl)
    | some cl => decidable_of_iff (cl.channels = ∅)
        ⟨fun hempty cl' hcl' => by rw [h] at hcl'; cases hcl'; exact hempty, fun hall => hall cl h⟩

section steps

variable {db db' : Database} {fd : Fd}

/-- The handlers keep the two records in agreement. -/
theorem Membership.returned (h : Membership db) {cmd : Bytes} {args : List Bytes}
    (hret : Returned fd db cmd args db') : Membership db' := by
  cases hret with
  | @nick nickname rest client hclient hfree hvalid =>
      have hrename : Membership (db.rename fd client nickname) := h.congr rfl rfl
      exact hrename.setClient (fun _ => rfl) (fun _ => rfl)
  | user => exact h.setClient (fun _ => rfl) (fun _ => rfl)
  | join hchannel hclient =>
      rw [← (getchannel_frame hchannel).1] at hclient
      exact (h.getchannel hchannel).joined hclient (mem_getchannel hchannel)
  | part => exact h.parted fd _
  | topic => exact h.setTopic _ _
  | names hchannel => exact h.getchannel hchannel
  | same => exact h

/-- So does every command, also one that throws. -/
theorem Membership.call (h : Membership db) {argv : List Bytes} {shown : Shown}
    (hs : runCall db fd argv = some (db', shown)) : Membership db' := by
  obtain ⟨outcome, out⟩ := shown
  by_cases hdone : outcome = .done
  · subst hdone
    rcases called_of_runCall hs with ⟨-, rfl⟩ | ⟨cmd, args, db₁, -, hret, rfl | rfl⟩
    · exact h
    · exact h.returned hret
    · exact (h.returned hret).setClient regist_id regist_channels
  · obtain ⟨cmd, args, e, -, hthrew, hdef, -⟩ := threw_of_runCall hs hdone
    obtain ⟨hclients, hchannels⟩ := hthrew.frame hdef
    exact h.congr hclients hchannels

/-- A new client is on no channel. -/
theorem Membership.clientAdd (h : Membership db) (hfree : fd ∉ db.clients) (info host : Bytes) :
    Membership (db.clientAdd fd info host) := by
  constructor
  · exact h.named
  · intro f cl hcl n hn
    rw [lookup_clientAdd hfree] at hcl
    split_ifs at hcl with hf
    · cases hcl
      cases hn
    · exact h.known f cl hcl n hn
  · intro n c hc f
    rw [h.users n c hc f]
    unfold Database.memberRef
    rw [lookup_clientAdd hfree]
    by_cases hf : f = fd
    · subst hf
      rw [AList.lookup_eq_none.mpr hfree, if_pos rfl]
      simp [Client.new]
    · rw [if_neg hf]

/-- A client that is on no channel can be removed. -/
theorem Membership.clientDel (h : Membership db)
    (hempty : ∀ cl ∈ db.clients.lookup fd, cl.channels = ∅) : Membership (db.clientDel fd) := by
  unfold Database.clientDel
  cases hfd : db.clients.lookup fd with
  | none => exact h
  | some client =>
      constructor
      · exact h.named
      · intro f cl hcl n hn
        dsimp only at hcl
        rw [Table.lookup_erase'] at hcl
        split_ifs at hcl with hf
        exact h.known f cl hcl n hn
      · intro n c hc f
        rw [h.users n c hc f]
        unfold Database.memberRef
        dsimp only
        rw [Table.lookup_erase']
        by_cases hf : f = fd
        · subst hf
          simp [hfd, hempty client hfd]
        · rw [if_neg hf]

/-- Every step that meets the condition keeps the invariant. -/
theorem membership_next (h : Membership db) {a : Event} {shown : Shown} (hC : LeavesFirst db a)
    (hs : next db a = some (db', shown)) : Membership db' := by
  cases next_iff_happens.mp hs with
  | clientAdd hfree => exact h.clientAdd hfree _ _
  | call hconn hcall => exact h.call hcall
  | clientDel => exact h.clientDel hC

end steps

/-! ## Runs -/

/-- In every run in which clients are removed only when they are on no channel, the users of a
channel are exactly the connected clients whose record names it, each under a reference to the
client that is there now. -/
theorem membership_live {past : List (Moment Database Event Shown)} {db : Database}
    (hrun : Run system past db) (hC : ∀ m ∈ past, LeavesFirst m.pre m.event) :
    ∀ n c, db.channels.lookup n = some c → ∀ f,
      (f ∈ c.users ↔ ∃ cl, db.clients.lookup f = some cl ∧ c.name ∈ cl.channels) ∧
      ∀ ref, c.users.lookup f = some ref →
        ref.fd = f ∧ ∃ cl, db.clients.lookup f = some cl ∧ db.deref ref = some cl := by
  have h : Membership db := hrun.invariant membership_initial
    (fun _ _ _ _ h hCa hs => membership_next h hCa hs) hC
  intro n c hc f
  refine ⟨by rw [h.named n c hc]; exact h.mem_users hc f, fun ref href => ?_⟩
  rw [h.users n c hc, Database.memberRef, Option.bind_eq_some_iff] at href
  obtain ⟨cl, hcl, href⟩ := href
  split_ifs at href
  cases href
  refine ⟨rfl, cl, hcl, ?_⟩
  simp [Database.deref, hcl]

/-- The events of a client that registers. -/
def register (fd : Fd) (nickname : String) : List Event := [
  .clientAdd fd (ascii "10.0.0.1:1") (ascii "10.0.0.1"),
  .call fd [ascii "NICK", ascii nickname],
  .call fd [ascii "USER", ascii "u", ascii "h", ascii "s", ascii "r"]]

/-- A client registers, joins a channel, leaves it again and disconnects. -/
theorem membership_live_part : ∃ past db, Run system past db ∧
    ∃ c, db.channels.lookup (ascii "#c") = some c ∧ (4 ∈ c.users ↔
      ∃ cl, db.clients.lookup 4 = some cl ∧ c.name ∈ cl.channels) := by
  obtain ⟨past, db, hrun, htest⟩ := exists_run_of_replay system
    (register 4 "alice" ++
      [.call 4 [ascii "JOIN", ascii "#c"], .call 4 [ascii "PART", ascii "#c"], .clientDel 4])
    (fun r => r.1.all (fun m => decide (LeavesFirst m.pre m.event)) &&
      (r.2.channels.lookup (ascii "#c")).isSome) (by decide +kernel)
  rw [Bool.and_eq_true, List.all_eq_true] at htest
  obtain ⟨hC, hc⟩ := htest
  obtain ⟨c, hc⟩ := Option.isSome_iff_exists.mp hc
  exact ⟨past, db, hrun, c, hc,
    (membership_live hrun (fun m hm => of_decide_eq_true (hC m hm)) _ c hc 4).1⟩

/-- A run in which a client disconnects while it is on a channel: the channel still refers to
it. -/
theorem stale_member : ∃ past db, Run system past db ∧
    ∃ c, db.channels.lookup (ascii "#c") = some c ∧ 4 ∈ c.users ∧ 4 ∉ db.clients := by
  obtain ⟨past, db, hrun, htest⟩ := exists_run_of_replay system
    (register 4 "alice" ++ [.call 4 [ascii "JOIN", ascii "#c"], .clientDel 4])
    (fun r => (r.2.channels.lookup (ascii "#c")).any (fun c : Channel => decide (4 ∈ c.users)) &&
      decide (4 ∉ r.2.clients)) (by decide +kernel)
  rw [Bool.and_eq_true, Option.any_eq_true, decide_eq_true_eq] at htest
  obtain ⟨⟨c, hc, hin⟩, hout⟩ := htest
  exact ⟨past, db, hrun, c, hc, of_decide_eq_true hin, hout⟩

end Mircd
