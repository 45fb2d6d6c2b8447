/-
# The table of the chat server

`/who` writes its table into a block whose size is computed from `clicnt` and the longest name: a
ruled line, a row for each client and a ruled line, each row over the NUL of the one before it.

* `whoLine`, `length_whoLine` : a row without its line feed, which is as long as all others;
* `store_rule` : the two writes of a ruled line;
* `whoTable_eq` : the writes stay inside the block and fill it;
* `who_table` : the table in every state of every run.
-/
import IntroNP.ChatServer

namespace Chat

open Block Machine

/-! ## Rows -/

theorem length_padLeft {w : ℕ} {s : Bytes} (h : s.length ≤ w) : (padLeft w s).length = w := by
  rw [padLeft, List.length_append, List.length_replicate]
  omega

theorem isLine_blanks (n : ℕ) : IsLine (List.replicate n (ch ' ')) := by
  intro b hb
  rw [List.eq_of_mem_replicate hb]
  decide

/-- The width of the first column is that of the longest name. -/
theorem le_mxname {clients : List (Fd × Client)} {c : Fd × Client} (h : c ∈ clients) :
    c.2.name.length ≤ mxname clients := by
  have hfold : ∀ (clients : List (Fd × Client)) (mx : ℕ),
      mx ≤ clients.foldl (fun mx c => if c.2.name.length > mx then c.2.name.length else mx) mx ∧
      ∀ c ∈ clients, c.2.name.length
        ≤ clients.foldl (fun mx c => if c.2.name.length > mx then c.2.name.length else mx) mx := by
    intro clients
    induction clients with
    | nil => exact fun mx => ⟨le_rfl, List.forall_mem_nil _⟩
    | cons d clients ih =>
        intro mx
        obtain ⟨hmx, hall⟩ := ih (if d.2.name.length > mx then d.2.name.length else mx)
        have hboth : mx ≤ (if d.2.name.length > mx then d.2.name.length else mx) ∧
            d.2.name.length ≤ (if d.2.name.length > mx then d.2.name.length else mx) := by
          split_ifs <;> omega
        exact ⟨hboth.1.trans hmx, List.forall_mem_cons.mpr ⟨hboth.2.trans hmx, hall⟩⟩
  exact (hfold clients 0).2 c h

/-- A row without its line feed: a mark at the requester, the name and the address. -/
def whoLine (mx : ℕ) (connfd : Fd) (c : Fd × Client) : Bytes :=
  (if c.1 = connfd then ch '*' else ch ' ') ::
    (ascii " " ++ padRight mx c.2.name ++ ascii " " ++ padLeft 21 c.2.info)

/-- A ruled line without its line feed. -/
def ruledLine (mx : ℕ) : Bytes := List.replicate (mx + 24) (ch '-')

section rows

variable {mx : ℕ} {connfd : Fd} {c : Fd × Client}

theorem whoRow_eq : whoRow mx connfd c = whoLine mx connfd c ++ ascii "\n" := by
  simp only [whoRow, whoLine, List.append_assoc, List.cons_append, List.nil_append]

theorem length_whoLine (hname : c.2.name.length ≤ mx) (hinfo : c.2.info.length ≤ 21) :
    (whoLine mx connfd c).length = mx + 24 := by
  have hblank : (ascii " ").length = 1 := rfl
  rw [whoLine, List.length_cons, List.length_append, List.length_append, List.length_append,
    length_padRight, max_eq_left hname, length_padLeft hinfo, hblank]
  omega

theorem isLine_whoLine (mx : ℕ) (connfd : Fd) (h : c.2.Printable) :
    IsLine (whoLine mx connfd c) := by
  have hmark : IsLine [if c.1 = connfd then ch '*' else ch ' '] := by
    split_ifs <;> decide
  have hblank : IsLine (ascii " ") := by decide
  have hline : whoLine mx connfd c = [if c.1 = connfd then ch '*' else ch ' '] ++
      (ascii " " ++ padRight mx c.2.name ++ ascii " " ++ padLeft 21 c.2.info) := rfl
  rw [hline, padRight, padLeft]
  simp only [isLine_append, isLine_blanks, hmark, hblank, h.name, h.info, and_self]

theorem isLine_ruledLine (mx : ℕ) : IsLine (ruledLine mx) := by
  intro b hb
  rw [List.eq_of_mem_replicate hb]
  decide

end rows

/-! ## The block -/

/-- A ruled line of `k` dashes: one more dash, and the line feed over it. -/
theorem store_rule (pre : Bytes) {old : Bytes} {k : ℕ} (h : k + 1 ≤ old.length) :
    ((store (pre ++ old) pre.length (List.replicate (k + 1) (ch '-'))).bind fun table =>
      store table (pre.length + k) (ascii "\n"))
      = some (pre ++ (List.replicate k (ch '-') ++ ascii "\n" ++ old.drop (k + 1))) := by
  have hlen : (List.replicate (k + 1) (ch '-')).length = k + 1 := List.length_replicate
  have hfits : (List.replicate (k + 1) (ch '-')).length ≤ old.length := hlen.trans_le h
  have hdashes := store_append pre hfits
  rw [hlen] at hdashes
  have hlast : pre ++ (List.replicate (k + 1) (ch '-') ++ old.drop (k + 1))
      = pre ++ List.replicate k (ch '-') ++ (ch '-' :: old.drop (k + 1)) := by
    rw [List.replicate_succ', List.append_assoc, List.append_assoc, List.singleton_append]
  have hpos : pre.length + k = (pre ++ List.replicate k (ch '-')).length := by
    rw [List.length_append, List.length_replicate]
  have hfeed : (ascii "\n").length ≤ (ch '-' :: old.drop (k + 1)).length := Nat.le_add_left 1 _
  rw [hdashes, Option.bind_some, hlast, hpos, store_append _ hfeed, List.append_assoc,
    List.append_assoc]
  rfl

/-- The writes of the table, for rows of one length, in a block of the size that is computed. -/
theorem stores_eq {k : ℕ} {rows : List Bytes} (hrows : ∀ r ∈ rows, r.length = k + 1)
    {block : Bytes} (hblock : block.length = (k + 1) * (rows.length + 2)) :
    (do
      let table ← store block 0 (List.replicate (k + 1) (ch '-'))
      let table ← store table k (ascii "\n")
      let table ← storeStrings 0 (k + 1) rows (k + 1) table
      let table ← store table (block.length - (k + 1)) (List.replicate (k + 1) (ch '-'))
      store table (block.length - 1) (ascii "\n"))
      = some (List.replicate k (ch '-') ++ ascii "\n" ++ rows.flatten ++
          (List.replicate k (ch '-') ++ ascii "\n")) := by
  have hsize : block.length = rows.length * (k + 1) + (k + 1) + (k + 1) := by
    rw [hblock]
    ring
  have hrule : (List.replicate k (ch '-') ++ ascii "\n").length = k + 1 := by
    rw [List.length_append, List.length_replicate]
    rfl
  have hflat : rows.flatten.length = rows.length * (k + 1) := by
    rw [List.length_flatten, List.map_congr_left hrows, List.map_const', List.sum_replicate_nat]
  -- the first line
  have hfirst := store_rule [] (show k + 1 ≤ block.length by omega)
  simp only [List.nil_append, List.length_nil, Nat.zero_add] at hfirst
  obtain ⟨table₀, hdashes, hfeed⟩ := Option.bind_eq_some_iff.mp hfirst
  -- the rows, which leave one line of the block
  have hroom : rows.length * (k + 1) < (block.drop (k + 1)).length := by
    rw [List.length_drop]
    omega
  obtain ⟨rest, hstore, hrest⟩ := exists_storeStrings 0 hrows
    (List.replicate k (ch '-') ++ ascii "\n") hroom
  rw [hrule] at hstore
  rw [List.length_drop] at hrest
  -- the last line
  have hpos : (List.replicate k (ch '-') ++ ascii "\n" ++ rows.flatten).length
      = block.length - (k + 1) := by
    rw [List.length_append, hrule, hflat]
    omega
  have hlast := store_rule (List.replicate k (ch '-') ++ ascii "\n" ++ rows.flatten)
    (show k + 1 ≤ rest.length by omega)
  have hfilled : rest.drop (k + 1) = [] := List.drop_eq_nil_of_le (by omega)
  have hend : block.length - (k + 1) + k = block.length - 1 := by omega
  rw [hpos, hend, hfilled, List.append_nil] at hlast
  obtain ⟨table₁, hdashes', hfeed'⟩ := Option.bind_eq_some_iff.mp hlast
  rw [← List.append_assoc] at hstore
  simp only [Option.bind_eq_bind, hdashes, hfeed, hstore, hdashes', hfeed', Option.bind_some]

/-- The lines of the table. -/
def whoLines (env : Env) (s : State) (connfd : Fd) : List Bytes :=
  ruledLine (mxname (env.order s.cliinfo)) ::
    (env.order s.cliinfo).map (whoLine (mxname (env.order s.cliinfo)) connfd) ++
    [ruledLine (mxname (env.order s.cliinfo))]

theorem mem_order {env : Env} {s : State} {c : Fd × Client} :
    c ∈ env.order s.cliinfo ↔ s.cliinfo.lookup c.1 = some c.2 := by
  rw [(env.order_perm s.cliinfo).mem_iff, List.mem_map, ← Table.mem_entries_iff]
  constructor
  · rintro ⟨e, he, rfl⟩
    exact he
  · intro he
    exact ⟨_, he, rfl⟩

/-- The writes of `/who` stay inside the block and leave its lines there. -/
theorem whoTable_eq (env : Env) {s : State} (hcount : Counted s) (hprint : Printable s)
    (connfd : Fd) :
    whoTable env s connfd = some ((whoLines env s connfd).map (· ++ ascii "\n")).flatten := by
  have hclients : (env.order s.cliinfo).length = s.cliinfo.entries.length := by
    rw [(env.order_perm s.cliinfo).length_eq, List.length_map]
  have hrows : ∀ r ∈ (env.order s.cliinfo).map (whoRow (mxname (env.order s.cliinfo)) connfd),
      r.length = mxname (env.order s.cliinfo) + 24 + 1 := by
    intro r hr
    obtain ⟨c, hc, rfl⟩ := List.mem_map.mp hr
    rw [whoRow_eq, List.length_append, length_whoLine (le_mxname hc)
      (hprint c.1 c.2 (mem_order.mp hc)).short]
    rfl
  have hsize : ((mxname (env.order s.cliinfo) + 24 + 1 : ℕ) * (s.clicnt + 2)).toNat
      = (mxname (env.order s.cliinfo) + 24 + 1) * (s.cliinfo.entries.length + 2) := by
    rw [hcount]
    rfl
  have hblock : (env.malloc ((mxname (env.order s.cliinfo) + 24 + 1) *
      (s.cliinfo.entries.length + 2))).length = (mxname (env.order s.cliinfo) + 24 + 1) *
        (((env.order s.cliinfo).map
          (whoRow (mxname (env.order s.cliinfo)) connfd)).length + 2) := by
    rw [env.malloc_length, List.length_map, hclients]
  have hstores := stores_eq hrows hblock
  rw [env.malloc_length] at hstores
  have hlen : 2 + mxname (env.order s.cliinfo) + 22 + 1 = mxname (env.order s.cliinfo) + 24 + 1 := by
    omega
  simp only [whoTable, hlen, hsize, Nat.add_sub_cancel]
  refine hstores.trans ?_
  have hmap : (env.order s.cliinfo).map (whoRow (mxname (env.order s.cliinfo)) connfd)
      = ((env.order s.cliinfo).map (whoLine (mxname (env.order s.cliinfo)) connfd)).map
        (· ++ ascii "\n") := by
    rw [List.map_map]
    exact List.map_congr_left fun c _ => whoRow_eq
  rw [whoLines, hmap, List.map_append, List.map_cons, List.map_singleton, List.flatten_append,
    List.flatten_cons, List.flatten_singleton]
  rfl

/-- The first word of a command is `/who`. -/
def AsksWho (received : Bytes) : Prop :=
  received.head? = some (ch '/') ∧ Ended 0 isBlank (buffer received) ∧
    firstToken 0 isBlank (buffer received) = ascii "/who"

instance (received : Bytes) : Decidable (AsksWho received) :=
  inferInstanceAs (Decidable (_ ∧ _ ∧ _))

/-- `/who` sends its table to the requester, and changes nothing. -/
theorem handleClientInput_who (env : Env) (s : State) (connfd : Fd) (cli : Client)
    {received : Bytes} (h : AsksWho received) :
    s.handleClientInput env connfd cli received = (some s, ⟨true, [],
      (whoTable env s connfd).toList.map fun table => (connfd, table)⟩) := by
  obtain ⟨hslash, hended, htoken⟩ := h
  have hne : received ≠ [] := by
    rintro rfl
    cases hslash
  rw [State.handleClientInput, if_neg hne, if_pos hslash, State.command,
    nextToken_eq rfl (Nat.zero_le _), List.drop_zero, if_pos hended, htoken, if_neg (by decide)]
  have hname : ¬ (ascii "/who" = ascii "/name" ∧ received.length > 7) := by
    rintro ⟨heq, -⟩
    exact absurd heq (by decide)
  show (if ascii "/who" = ascii "/exit" then _ else _) = _
  rw [if_neg (by decide), if_neg hname, if_pos rfl]

theorem mem_whoLines {env : Env} {s : State} {connfd : Fd} {l : Bytes}
    (h : l ∈ whoLines env s connfd) : l = ruledLine (mxname (env.order s.cliinfo)) ∨
      ∃ c ∈ env.order s.cliinfo, l = whoLine (mxname (env.order s.cliinfo)) connfd c := by
  rw [whoLines, List.mem_append, List.mem_cons, List.mem_map, List.mem_singleton] at h
  rcases h with (hl | ⟨c, hc, hl⟩) | hl
  · exact Or.inl hl
  · exact Or.inr ⟨c, hc, hl.symm⟩
  · exact Or.inl hl

/-- When `/who` is executed in any state of a run, `cliinfo` holds the clients that the events of
the run have left, `clicnt` is their number, and the table is written inside its block and is what is
sent to the requester.  It has `clicnt + 2` lines of one length: a ruled line, a line for each client
with the current name and a mark at the requester only, and a ruled line. -/
theorem who_table {past : List (Moment (Option State) Event Shown)} {s : State}
    (hrun : Run system past (some s)) (hC : ∀ m ∈ past, LineName m.event) (env : Env)
    {connfd : Fd} (hmem : connfd ∈ s.cliinfo) {received : Bytes}
    (hlen : received.length ≤ MAX_LINE) (hwho : AsksWho received) :
    (∀ fd, s.cliinfo.lookup fd = clientOf (past.map Moment.event) fd) ∧
    s.clicnt = s.cliinfo.entries.length ∧
    whoTable env s connfd = some ((whoLines env s connfd).map (· ++ ascii "\n")).flatten ∧
    next (some s) (.read env connfd received) = some (some s, ⟨true, [],
      [(connfd, ((whoLines env s connfd).map (· ++ ascii "\n")).flatten)]⟩) ∧
    (whoLines env s connfd).length = s.clicnt + 2 ∧
    (∃ rows, whoLines env s connfd = ruledLine (mxname (env.order s.cliinfo)) :: rows ++
        [ruledLine (mxname (env.order s.cliinfo))] ∧
      rows.Perm (s.cliinfo.entries.map fun e =>
        whoLine (mxname (env.order s.cliinfo)) connfd (e.1, e.2))) ∧
    ∀ l ∈ whoLines env s connfd, l.length + 1 = 2 + mxname (env.order s.cliinfo) + 22 + 1 ∧
      ch '\n' ∉ l ∧ 0 ∉ l := by
  have hcount := counted_run hrun
  have hprint := printable_run hrun hC
  have htable := whoTable_eq env hcount hprint connfd
  obtain ⟨cli, hcli⟩ := Table.mem_iff_lookup.mp hmem
  have hclients : (env.order s.cliinfo).length = s.cliinfo.entries.length := by
    rw [(env.order_perm s.cliinfo).length_eq, List.length_map]
  refine ⟨clientOf_run hrun, hcount, htable, ?_, ?_, ⟨_, rfl, ?_⟩, ?_⟩
  · simp only [next, if_pos hlen, hcli, Option.map_some]
    rw [handleClientInput_who env s connfd cli hwho, htable]
    rfl
  · rw [whoLines, List.length_append, List.length_cons, List.length_map, List.length_singleton,
      hclients, hcount]
    push_cast
    ring
  · have hperm := (env.order_perm s.cliinfo).map (whoLine (mxname (env.order s.cliinfo)) connfd)
    rw [List.map_map] at hperm
    exact hperm
  · intro l hl
    rcases mem_whoLines hl with rfl | ⟨c, hc, rfl⟩
    · obtain ⟨hnul, hlf⟩ := isLine_iff.mp (isLine_ruledLine (mxname (env.order s.cliinfo)))
      refine ⟨?_, hlf, hnul⟩
      rw [ruledLine, List.length_replicate]
      omega
    · have hcli := hprint c.1 c.2 (mem_order.mp hc)
      obtain ⟨hnul, hlf⟩ := isLine_iff.mp (isLine_whoLine (mxname (env.order s.cliinfo)) connfd hcli)
      refine ⟨?_, hlf, hnul⟩
      rw [length_whoLine (le_mxname hc) hcli.short]
      omega

/-- Three clients, one of which has changed its name, and one of which has left. -/
theorem who_table_two : ∃ past s, Run system past (some s) ∧
    clientOf (past.map Moment.event) 4 = some ⟨ascii "nella", ascii "127.0.0.1:4711"⟩ ∧
    clientOf (past.map Moment.event) 6 = none ∧
    s.clicnt = 2 ∧ (whoTable Env.sample s 5).isSome ∧
    (whoLines Env.sample s 5).length = s.clicnt + 2 ∧
    whoLine (mxname (Env.sample.order s.cliinfo)) 5
      (4, ⟨ascii "nella", ascii "127.0.0.1:4711"⟩) ∈ whoLines Env.sample s 5 := by
  obtain ⟨past, s, hrun, htest⟩ := exists_run_of_replay system
    [.connect Env.sample 4 ⟨(127, 0, 0, 1), 4711⟩ (ascii "abcdefg"),
      .connect Env.sample 5 ⟨(127, 0, 0, 1), 4712⟩ (ascii "hijklmn"),
      .connect Env.sample 6 ⟨(127, 0, 0, 1), 4713⟩ (ascii "opqrstu"),
      .read Env.sample 4 (ascii "/name nella\n"), .read Env.sample 6 []]
    (fun r => r.2.any (fun s : State => decide (s.clicnt = 2 ∧ 5 ∈ s.cliinfo ∧
        s.cliinfo.lookup 4 = some ⟨ascii "nella", ascii "127.0.0.1:4711"⟩ ∧
        s.cliinfo.lookup 6 = none)) &&
      r.1.all fun m => decide (LineName m.event)) (by decide +kernel)
  simp only [Bool.and_eq_true, Option.any_eq_true, List.all_eq_true, decide_eq_true_eq] at htest
  obtain ⟨⟨s, rfl, htwo, hmem, hnella, hgone⟩, hC⟩ := htest
  obtain ⟨hclients, -, htable, -, hlines, -⟩ := who_table hrun hC Env.sample hmem
    (show (ascii "/who\n").length ≤ MAX_LINE by decide) (by decide +kernel)
  refine ⟨past, s, hrun, (hclients 4).symm.trans hnella, (hclients 6).symm.trans hgone, htwo,
    by rw [htable]; rfl, hlines, ?_⟩
  have hrow : (4, ⟨ascii "nella", ascii "127.0.0.1:4711"⟩) ∈ Env.sample.order s.cliinfo :=
    mem_order.mpr hnella
  exact List.mem_append_left _ (List.mem_cons_of_mem _ (List.mem_map_of_mem hrow))

end Chat
