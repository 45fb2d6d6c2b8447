/-
# Members with nicknames

Only registered clients join channels, so whoever is on a channel has a nickname.  A reference may
be left over from a client that is gone; the number of the object that it was bound to tells it from
one to a new client under the same file descriptor.

* `Database.Named`, `Members` : the references of the channels;
* `members_run` : in every run all that are on a channel have a nickname.
-/
import IntroNP.MircdRegistration

namespace Mircd

open Machine

/-- The client that a reference was bound to has a nickname, if it is still there. -/
structure Database.Named (db : Database) (ref : ClientRef) : Prop where
  created : ref.id < db.created
  hasNick : ∀ cl, db.deref ref = some cl → cl.hasNick = true

/-- All that are on a channel have a nickname. -/
structure Members (db : Database) : Prop where
  ids : ∀ fd cl, db.clients.lookup fd = some cl → cl.id < db.created
  users : ∀ n c, db.channels.lookup n = some c → ∀ f ref, c.users.lookup f = some ref →
    db.Named ref

theorem deref_eq_some {db : Database} {ref : ClientRef} {cl : Client} :
    db.deref ref = some cl ↔ db.clients.lookup ref.fd = some cl ∧ cl.id = ref.id := by
  rw [Database.deref, Option.filter_eq_some_iff, decide_eq_true_eq]

theorem members_initial : Members Database.initial where
  ids := by rintro fd cl ⟨⟩
  users := by rintro n c ⟨⟩

/-! ## Steps -/

section steps

variable {db db' : Database} {fd : Fd}

/-- A change of the clients that keeps their numbers and nicknames. -/
theorem Database.Named.setClient {ref : ClientRef} (h : db.Named ref) {g : Client → Client}
    (hid : ∀ cl, (g cl).id = cl.id) (hnick : ∀ cl, cl.hasNick = true → (g cl).hasNick = true) :
    (db.setClient fd g).Named ref := by
  refine ⟨h.created, fun cl hcl => ?_⟩
  rw [deref_eq_some, lookup_setClient] at hcl
  split_ifs at hcl with hfd
  · obtain ⟨hcl, hsame⟩ := hcl
    obtain ⟨cl₀, hcl₀, rfl⟩ := Option.map_eq_some_iff.mp hcl
    exact hnick cl₀ (h.hasNick cl₀ (deref_eq_some.mpr ⟨hcl₀, (hid cl₀).symm.trans hsame⟩))
  · exact h.hasNick cl (deref_eq_some.mpr hcl)

theorem Members.setClient (h : Members db) {g : Client → Client} (hid : ∀ cl, (g cl).id = cl.id)
    (hnick : ∀ cl, cl.hasNick = true → (g cl).hasNick = true) : Members (db.setClient fd g) where
  ids := by
    intro f cl hcl
    rw [lookup_setClient] at hcl
    split_ifs at hcl with hfd
    · obtain ⟨cl₀, hcl₀, rfl⟩ := Option.map_eq_some_iff.mp hcl
      rw [hid]
      exact h.ids f cl₀ hcl₀
    · exact h.ids f cl hcl
  users := fun n c hc f ref href => (h.users n c hc f ref href).setClient hid hnick

/-- A change of a channel that adds only such users. -/
theorem Members.setChannel (h : Members db) {name : Bytes} {g : Channel → Channel}
    (hg : ∀ c f ref, (g c).users.lookup f = some ref →
      c.users.lookup f = some ref ∨ db.Named ref) : Members (db.setChannel name g) where
  ids := h.ids
  users := by
    intro n c hc f ref href
    have hnamed : db.Named ref := by
      rw [lookup_setChannel] at hc
      split_ifs at hc
      · obtain ⟨c₀, hc₀, rfl⟩ := Option.map_eq_some_iff.mp hc
        rcases hg c₀ f ref href with hold | hnew
        · exact h.users n c₀ hc₀ f ref hold
        · exact hnew
      · exact h.users n c hc f ref href
    exact ⟨hnamed.created, hnamed.hasNick⟩

theorem Members.congr (h : Members db) (hclients : db'.clients = db.clients)
    (hchannels : db'.channels = db.channels) (hcreated : db'.created = db.created) :
    Members db' := by
  obtain ⟨clients, nickMp, channels, created⟩ := db'
  subst hclients hchannels hcreated
  exact ⟨h.ids, fun n c hc f ref href =>
    ⟨(h.users n c hc f ref href).created, (h.users n c hc f ref href).hasNick⟩⟩

/-- A new channel has no users. -/
theorem Members.getchannel (h : Members db) {name : Bytes} (hdb : db.getchannel name = some db') :
    Members db' := by
  unfold Database.getchannel at hdb
  split_ifs at hdb with hin haccept
  · cases hdb
    exact h
  · cases hdb
    refine ⟨h.ids, fun n c hc f ref href => ?_⟩
    by_cases hn : n = name
    · subst hn
      rw [AList.lookup_insert] at hc
      cases hc
      cases href
    · rw [AList.lookup_insert_ne hn] at hc
      exact ⟨(h.users n c hc f ref href).created, (h.users n c hc f ref href).hasNick⟩

/-- A new client is on no channel: no reference has its number. -/
theorem Members.clientAdd (h : Members db) (hfree : fd ∉ db.clients) (info host : Bytes) :
    Members (db.clientAdd fd info host) where
  ids := by
    intro f cl hcl
    rw [lookup_clientAdd hfree] at hcl
    split_ifs at hcl
    · cases hcl
      exact Nat.lt_succ_self _
    · exact Nat.lt_succ_of_lt (h.ids f cl hcl)
  users := by
    intro n c hc f ref href
    have hnamed := h.users n c hc f ref href
    refine ⟨Nat.lt_succ_of_lt hnamed.created, fun cl hcl => ?_⟩
    rw [deref_eq_some, lookup_clientAdd hfree] at hcl
    split_ifs at hcl with hf
    · obtain ⟨hnew, hid⟩ := hcl
      cases hnew
      -- the number of the new client has not been given before
      exact absurd hnamed.created (hid ▸ Nat.lt_irrefl _)
    · exact hnamed.hasNick cl (deref_eq_some.mpr hcl)

theorem Members.clientDel (h : Members db) (fd : Fd) : Members (db.clientDel fd) := by
  have hkept : ∀ f cl, (db.clientDel fd).clients.lookup f = some cl →
      db.clients.lookup f = some cl := by
    intro f cl hcl
    rw [lookup_clientDel] at hcl
    split_ifs at hcl
    exact hcl
  have hsame : (db.clientDel fd).channels = db.channels ∧
      (db.clientDel fd).created = db.created := by
    unfold Database.clientDel
    cases db.clients.lookup fd <;> exact ⟨rfl, rfl⟩
  constructor
  · intro f cl hcl
    rw [hsame.2]
    exact h.ids f cl (hkept f cl hcl)
  · intro n c hc f ref href
    rw [hsame.1] at hc
    have hnamed := h.users n c hc f ref href
    refine ⟨by rw [hsame.2]; exact hnamed.created, fun cl hcl => ?_⟩
    obtain ⟨hcl, hid⟩ := deref_eq_some.mp hcl
    exact hnamed.hasNick cl (deref_eq_some.mpr ⟨hkept _ _ hcl, hid⟩)

/-- The handlers keep the invariant: only a client with a nickname joins. -/
theorem Members.returned (h : Members db) {cmd : Bytes} {args : List Bytes}
    (hjoin : cmd = ascii "JOIN" → ∀ cl, db.clients.lookup fd = some cl → cl.hasNick = true)
    (hret : Returned fd db cmd args db') : Members db' := by
  cases hret with
  | @nick nickname rest client hclient hfree hvalid =>
      have hrename : Members (db.rename fd client nickname) := h.congr rfl rfl rfl
      exact hrename.setClient (fun _ => rfl) (fun _ _ => rfl)
  | user => exact h.setClient (fun _ => rfl) (fun _ hcl => hcl)
  | @join name rest db₁ client hchannel hclient =>
      have hclient₁ : db₁.clients.lookup fd = some client := by
        rw [(getchannel_frame hchannel).1, hclient]
      have h₁ : Members (db₁.setClient fd (Client.join name)) :=
        (h.getchannel hchannel).setClient (fun _ => rfl) (fun _ hcl => hcl)
      have hnew : (db₁.setClient fd (Client.join name)).clients.lookup fd
          = some (client.join name) := by
        rw [lookup_setClient, if_pos rfl, hclient₁, Option.map_some]
      -- the reference to the client that joins is the only new one
      refine h₁.setChannel fun c f ref href => ?_
      rw [Channel.addUser, Table.lookup_emplace] at href
      split_ifs at href
      · cases href
        have hid := h₁.ids fd _ hnew
        refine Or.inr ⟨hid, fun cl hcl => ?_⟩
        obtain ⟨hcl, -⟩ := deref_eq_some.mp hcl
        rw [hnew] at hcl
        cases hcl
        exact hjoin rfl client hclient
      · exact Or.inl href
  | @part name =>
      have h₁ : Members (db.setClient fd (Client.part name)) :=
        h.setClient (fun _ => rfl) (fun _ hcl => hcl)
      refine h₁.setChannel fun c f ref href => ?_
      rw [Channel.delUser, Table.lookup_erase'] at href
      split_ifs at href
      exact Or.inl href
  | topic => exact h.setChannel fun _ _ _ href => Or.inl href
  | names hchannel => exact h.getchannel hchannel
  | same => exact h

/-- A command that returns has been run by a registered client, unless it is one of three. -/
theorem hasRegist_of_runCall {cmd : Bytes} {args : List Bytes} {out : List Sent}
    (h : runCall db fd (cmd :: args) = some (db', ⟨.done, out⟩)) (hcmd : cmd ∉ unregAllow)
    {cl : Client} (hcl : db.clients.lookup fd = some cl) : cl.hasRegist = true := by
  unfold runCall at h
  rw [call_eq] at h
  cases hd : dispatch db fd (cmd :: args) with
  -- a command that returns has passed the checks
  | nothing => exact absurd hd (dispatch_cons _ _ _ _)
  | throws e =>
      rw [hd] at h
      cases e <;> cases h
  | handler cmd' item args' regist =>
      obtain ⟨heq, -, -, client, hclient, hregist, hallow⟩ := dispatch_eq_handler hd
      cases heq
      rw [hcl] at hclient
      cases hclient
      rw [hregist]
      by_contra hfalse
      exact hcmd (hallow (Bool.eq_false_iff.mpr hfalse))

/-- So does every command. -/
theorem Members.call (h : Members db)
    (hregist : ∀ cl, db.clients.lookup fd = some cl → cl.hasRegist = true → cl.hasNick = true)
    {argv : List Bytes} {shown : Shown} (hs : runCall db fd argv = some (db', shown)) :
    Members db' := by
  obtain ⟨outcome, out⟩ := shown
  by_cases hdone : outcome = .done
  · subst hdone
    rcases called_of_runCall hs with ⟨-, rfl⟩ | ⟨cmd, args, db₁, rfl, hret, hdb⟩
    · exact h
    · have h₁ : Members db₁ := by
        refine h.returned (fun hjoin cl hcl => hregist cl hcl ?_) hret
        subst hjoin
        exact hasRegist_of_runCall hs (by decide) hcl
      rcases hdb with rfl | rfl
      · exact h₁
      · exact h₁.setClient regist_id fun cl hcl => (regist_hasNick cl).trans hcl
  · obtain ⟨cmd, args, e, -, hthrew, hdef, -⟩ := threw_of_runCall hs hdone
    cases hthrew with
    | invalid => exact h.congr rfl rfl rfl
    | collision => exact h
    | other => exact h
    | undefined => exact absurd rfl hdef

end steps

/-! ## Runs -/

/-- In every run all that are on a channel have a nickname. -/
theorem members_run {past : List (Moment Database Event Shown)} {db : Database}
    (hrun : Run system past db) : Members db := by
  have hboth : Registration past db ∧ Members db := by
    refine hrun.history_invariant (C := fun _ _ => True)
      (I := fun past db => Registration past db ∧ Members db)
      ⟨registration_initial, members_initial⟩ ?_ (fun _ _ => trivial)
    rintro past db a db' shown - ⟨hreg, h⟩ - hs
    refine ⟨registration_next hreg hs, ?_⟩
    cases next_iff_happens.mp hs with
    | clientAdd hfree => exact h.clientAdd hfree _ _
    | call hconn hcall =>
        refine h.call (fun cl hcl hregist => ?_) hcall
        have hstatus := hreg.status _ cl hcl
        rw [Client.hasRegist, hstatus] at hregist
        rw [Client.hasNick, hstatus]
        exact (Bool.and_eq_true_iff.mp hregist).1
    | clientDel => exact h.clientDel _
  exact hboth.2

end Mircd
