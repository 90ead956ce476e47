import MumbleServer.ChannelLinks
import MumbleServer.Runs

/-! # The channels in memory and in the database

`internal/channel/manager.go` with both sides of it: the channels in memory and the table
`channels`, whose rows are only marked as deleted.  Each statement may fail, and one that fails
changes nothing; a transaction is all or nothing.  `Create`, `Remove`, `UpdateLinks` and
`CleanEmptyTempChannels` write to the database first and to memory only if that has succeeded.
`Update` writes to memory first, and leaves it so if the database refuses.

`Agree` says that memory and database have the same channels with the same data.  It is kept by a
call exactly if the call is no update that fails with something to change (`agree_step_iff`). -/

namespace MumbleServer.Nodes

structure Row where
  id : ℕ
  parentID : Option ℕ
  name : String
  description : String
  position : Int
  maxUsers : ℕ
  isTemporary : Bool
  links : List ℕ
  inheritACL : Bool

/-- The channel of a row; `ptrToUint32` makes 0 of a parent that is not there. -/
def Row.channel (r : Row) : Channel :=
  ⟨r.id, r.parentID.getD 0, r.name, r.description, r.position, r.maxUsers, r.isTemporary, r.links,
    r.inheritACL⟩

end MumbleServer.Nodes

namespace MumbleServer.ChannelStore

open Channels (UpdateOpts)
variable {cs : Channels}

/-- A row of the table `channels`. -/
structure Record extends Nodes.Row where
  serverID : ℕ
  deleted : Bool

/-- What the rows of a server and its channels are compared in. -/
structure Shown where
  parentID : ℕ
  name : String
  description : String
  position : Int
  maxUsers : ℕ
  isTemporary : Bool
  links : List ℕ
deriving DecidableEq

def shown (c : Channel) : Shown :=
  ⟨c.parentID, c.name, c.description, c.position, c.maxUsers, c.isTemporary, c.links⟩

namespace Record
variable (r : Record)

/-- The row is that of a channel of the server, and not deleted. -/
def live (serverID : ℕ) : Bool := decide (r.serverID = serverID) && !r.deleted

def shown : Shown := ChannelStore.shown r.channel

end Record

/-! ### The table -/

/-- The table, with its primary key. -/
structure Table where
  records : List Record
  primary : (records.map fun r => r.id).Nodup

variable {f : Record → Record}

namespace Table
variable (t : Table) (serverID id : ℕ)

def row : Option Record := t.records.find? fun r => r.live serverID && decide (r.id = id)

theorem nodup_map {t : Table} (hf : ∀ r, (f r).id = r.id) :
    ((t.records.map f).map fun r => r.id).Nodup := by
  rw [List.map_map]
  have hids : (fun r => r.id) ∘ f = fun r : Record => r.id := funext hf
  rw [hids]
  exact t.primary

/-- A row after an `UPDATE` of the columns that hold data. -/
def written (f : Record → Record) (r : Record) : Record :=
  if r.live serverID && decide (r.id = id) then
    { f r with id := r.id, serverID := r.serverID, deleted := r.deleted }
  else r

theorem written_id (f : Record → Record) (r : Record) : (written serverID id f r).id = r.id := by
  unfold written
  split_ifs <;> rfl

/-- `UPDATE channels SET .. WHERE id = ? AND server_id = ?`. -/
def write (f : Record → Record) : Table where
  records := t.records.map (written serverID id f)
  primary := nodup_map (written_id serverID id f)

/-- A row after a `DELETE`, which only marks it. -/
def struck (r : Record) : Record :=
  if r.live serverID && decide (r.id = id) then { r with deleted := true } else r

theorem struck_id (r : Record) : (struck serverID id r).id = r.id := by
  unfold struck
  split_ifs <;> rfl

/-- `DELETE .. WHERE id = ? AND server_id = ?`. -/
def delete : Table where
  records := t.records.map (struck serverID id)
  primary := nodup_map (struck_id serverID id)

def insert (r : Record) (h : r.id ∉ t.records.map fun r => r.id) : Table where
  records := r :: t.records
  primary := List.nodup_cons.mpr ⟨h, t.primary⟩

end Table

/-! ### The calls -/

/-- The manager of a server: the tree, which is a map, and the table. -/
@[ext]
structure Store where
  serverID : ℕ
  memory : Channels
  keyed : (memory.map Channel.id).Nodup
  table : Table

/-- What becomes of the statements of a transaction. -/
structure Tx where
  begins : Bool
  updates : ℕ → Bool
  commits : Bool

/-- The statements of `UpdateLinks` in a transaction; none if it is rolled back. -/
def Tx.execute (tx : Tx) (t : Table) (serverID : ℕ) (updated : List (ℕ × List ℕ)) : Option Table :=
  if tx.begins = false then none
  else
    match updated.foldlM (fun (t : Table) e => if tx.updates e.1 then
        some (t.write serverID e.1 fun r => { r with links := e.2 }) else none) t with
    | none => none
    | some t => if tx.commits then some t else none

/-- There is something about links in the options. -/
def hasLinkUpdates (opts : UpdateOpts) : Bool :=
  opts.links.isSome || !opts.linksAdd.isEmpty || !opts.linksRemove.isEmpty

/-- `updates` has something in it. -/
def hasUpdates (opts : UpdateOpts) : Bool :=
  opts.name.isSome || opts.description.isSome || opts.position.isSome || opts.maxUsers.isSome ||
    opts.temporary.isSome || hasLinkUpdates opts

/-- A channel after `Update`. -/
def edited (opts : UpdateOpts) (c : Channel) : Channel :=
  { c with
    name := opts.name.getD c.name
    description := opts.description.getD c.description
    position := opts.position.getD c.position
    maxUsers := opts.maxUsers.getD c.maxUsers
    isTemporary := opts.temporary.getD c.isTemporary
    links := opts.newLinks c.links }

/-- A row after `Update`; the links written are those that the channel has now. -/
def Record.edited (opts : UpdateOpts) (links : List ℕ) (r : Record) : Record :=
  { r with
    name := opts.name.getD r.name
    description := opts.description.getD r.description
    position := opts.position.getD r.position
    maxUsers := opts.maxUsers.getD r.maxUsers
    isTemporary := opts.temporary.getD r.isTemporary
    links := if hasLinkUpdates opts then links else r.links }

section
variable (h : (cs.map Channel.id).Nodup)
include h

theorem keyed_map {f : Channel → Channel}
    (hf : ∀ c, (f c).id = c.id) : ((cs.map f).map Channel.id).Nodup := by
  rw [List.map_map]
  have hids : Channel.id ∘ f = Channel.id := funext hf
  rwa [hids]

theorem keyed_update (id : ℕ) (opts : UpdateOpts) : ((cs.update id opts).map Channel.id).Nodup := by
  refine keyed_map h fun c => ?_
  split_ifs <;> rfl

theorem keyed_filter (p : Channel → Bool) : ((cs.filter p).map Channel.id).Nodup :=
  h.sublist (List.filter_sublist.map _)

theorem keyed_cons (c : Channel) :
    ((c :: cs.filter fun d => decide (d.id ≠ c.id)).map Channel.id).Nodup := by
  refine List.nodup_cons.mpr ⟨fun hmem => ?_, keyed_filter h _⟩
  obtain ⟨d, hd, hid⟩ := List.mem_map.mp hmem
  exact absurd hid (of_decide_eq_true (List.mem_filter.mp hd).2)

end

namespace Store
variable (s : Store)

def row (id : ℕ) : Option Record := s.table.row s.serverID id

/-- The channel goes, in both places. -/
def drop (id : ℕ) : Store where
  serverID := s.serverID
  memory := s.memory.filter fun c => decide (c.id ≠ id)
  keyed := keyed_filter s.keyed _
  table := s.table.delete s.serverID id

/-- A new channel, in both places. -/
def enter (r : Record) (h : r.id ∉ s.table.records.map fun r => r.id) : Store where
  serverID := s.serverID
  memory := r.channel :: s.memory.filter fun d => decide (d.id ≠ r.channel.id)
  keyed := keyed_cons s.keyed r.channel
  table := s.table.insert r h

/-- `Create`; the database assigns the ID and refuses one that was given before. -/
def create (newID parentID : ℕ) (name description : String) (position : Int) (temporary : Bool)
    (maxUsers : ℕ) (ok : Bool) : Store × Option Channel :=
  if (s.memory.getChannel parentID).isNone then (s, none)
  else if name = "" then (s, none)
  else if h : ok = false ∨ newID ∈ s.table.records.map fun r => r.id then (s, none)
  else
    let r : Record := ⟨⟨newID, some parentID, name, description, position, maxUsers, temporary, [],
      true⟩, s.serverID, false⟩
    (s.enter r (not_or.mp h).2, some r.channel)

/-- The channel changes, in memory. -/
def edit (id : ℕ) (opts : UpdateOpts) : Store where
  serverID := s.serverID
  memory := s.memory.update id opts
  keyed := keyed_update s.keyed id opts
  table := s.table

/-- `Update`: memory first. -/
def update (id : ℕ) (opts : UpdateOpts) (ok : Bool) : Store × Bool :=
  match s.memory.getChannel id with
  | none => (s, false)
  | some n =>
    if hasUpdates opts = false then (s.edit id opts, true)
    else if ok = false then (s.edit id opts, false)
    else
      ({ s.edit id opts with
          table := s.table.write s.serverID id (.edited opts (opts.newLinks n.links)) }, true)

def remove (id : ℕ) (ok : Bool) : Store × Bool :=
  if id = rootChannelID then (s, false)
  else if (s.memory.getChannel id).isNone then (s, false)
  else if s.memory.hasChildren id then (s, false)
  else if ok = false then (s, false)
  else (s.drop id, true)

/-- `updated` of `UpdateLinks`. -/
def linkUpdates (node : Channel) (desired : List ℕ) : List (ℕ × List ℕ) :=
  (s.memory.filter (s.memory.linksAffected node desired)).map fun d =>
    (d.id, s.memory.relinked node desired d)

/-- `UpdateLinks`: memory last. -/
def updateLinks (id : ℕ) (desired : List ℕ) (tx : Tx) : Store × Option (List ℕ) :=
  match s.memory.getChannel id with
  | none => (s, none)
  | some node =>
    if desired.any (fun l => decide (l = id) || !s.memory.has l) then (s, none)
    else if s.memory.linksStable node desired then (s, some [])
    else
      match tx.execute s.table s.serverID (s.linkUpdates node desired) with
      | none => (s, none)
      | some table =>
        ({ s with
            memory := s.memory.map (s.memory.relink node desired)
            keyed := keyed_map s.keyed (relink_id node desired)
            table := table },
          some (Channels.sortedLinkIDs
            ((s.memory.filter (s.memory.linksAffected node desired)).map Channel.id)))

/-- One round of `CleanEmptyTempChannels`, which goes through the map in some order: the first
empty temporary channel without children that the database lets go. -/
def cleanRound (hasUsers : ℕ → Bool) (order : List ℕ) (ok : ℕ → Bool) : Option Store :=
  (order.find? fun id =>
    (s.memory.getChannel id).any (fun n => decide (id ≠ rootChannelID) && n.isTemporary) &&
      !s.memory.hasChildren id && !hasUsers id && ok id).map s.drop

/-- The rounds of `CleanEmptyTempChannels`. -/
def cleanLoop (hasUsers : ℕ → Bool) (order : ℕ → List ℕ) (ok : ℕ → ℕ → Bool) : ℕ → Store → Store
  | 0, s => s
  | fuel + 1, s =>
    match s.cleanRound hasUsers (order fuel) (ok fuel) with
    | none => s
    | some s => cleanLoop hasUsers order ok fuel s

/-- `CleanEmptyTempChannels`; every round but the last takes a channel away. -/
def cleanEmptyTempChannels (hasUsers : ℕ → Bool) (order : ℕ → List ℕ) (ok : ℕ → ℕ → Bool) : Store :=
  cleanLoop hasUsers order ok s.memory.length s

end Store

/-- The calls, with what becomes of their statements. -/
inductive Call
  | create (newID parentID : ℕ) (name description : String) (position : Int) (temporary : Bool)
      (maxUsers : ℕ) (ok : Bool)
  | update (id : ℕ) (opts : UpdateOpts) (ok : Bool)
  | remove (id : ℕ) (ok : Bool)
  | updateLinks (id : ℕ) (desired : List ℕ) (tx : Tx)
  | clean (hasUsers : ℕ → Bool) (order : ℕ → List ℕ) (ok : ℕ → ℕ → Bool)

def step (s : Store) : Call → Store
  | .create newID parentID name description position temporary maxUsers ok =>
    (s.create newID parentID name description position temporary maxUsers ok).1
  | .update id opts ok => (s.update id opts ok).1
  | .remove id ok => (s.remove id ok).1
  | .updateLinks id desired tx => (s.updateLinks id desired tx).1
  | .clean hasUsers order ok => s.cleanEmptyTempChannels hasUsers order ok

/-- Memory equals the database: every channel in memory has a live row with the same data, and
every live row of the server is in memory. -/
structure Agree (s : Store) : Prop where
  stored : ∀ c ∈ s.memory, ∃ r ∈ s.table.records, r.live s.serverID = true ∧ r.id = c.id ∧
    r.shown = shown c
  loaded : ∀ r ∈ s.table.records, r.live s.serverID = true → ∃ c ∈ s.memory, c.id = r.id

/-! ### Lookups in the table -/

namespace Table
variable {t : Table} {serverID id : ℕ} {r : Record}

theorem row_eq_some_iff :
    t.row serverID id = some r ↔ r ∈ t.records ∧ r.live serverID = true ∧ r.id = id := by
  unfold row
  constructor
  · intro h
    have hcond := List.find?_some h
    rw [Bool.and_eq_true, decide_eq_true_eq] at hcond
    exact ⟨List.mem_of_find?_eq_some h, hcond⟩
  · rintro ⟨hmem, hlive, hid⟩
    cases hf : t.records.find? fun r => r.live serverID && decide (r.id = id) with
    | none =>
      have hnot := List.find?_eq_none.mp hf r hmem
      simp [hlive, hid] at hnot
    | some r' =>
      have hcond := List.find?_some hf
      rw [Bool.and_eq_true, decide_eq_true_eq] at hcond
      have hmem' := List.mem_of_find?_eq_some hf
      rw [List.inj_on_of_nodup_map t.primary hmem' hmem (hcond.2.trans hid.symm)]

theorem find_map {p : Record → Bool} (hf : ∀ r, p (f r) = p r) (rs : List Record) :
    (rs.map f).find? p = (rs.find? p).map f := by
  rw [List.find?_map]
  congr 2
  funext r
  exact hf r

theorem find_map_other {p : Record → Bool} (hf : ∀ r, p (f r) = p r)
    (hother : ∀ r, p r = true → f r = r) (rs : List Record) : (rs.map f).find? p = rs.find? p := by
  rw [find_map hf]
  cases hr : rs.find? p with
  | none => rfl
  | some r => rw [Option.map_some, hother r (List.find?_some hr)]

theorem row_write (t : Table) (serverID id other : ℕ) (f : Record → Record) :
    (t.write serverID id f).row serverID other =
      if other = id then (t.row serverID id).map fun r =>
        { f r with id := r.id, serverID := r.serverID, deleted := r.deleted }
      else t.row serverID other := by
  have hsame : ∀ r : Record, ((written serverID id f r).live serverID &&
      decide ((written serverID id f r).id = other)) =
        (r.live serverID && decide (r.id = other)) := by
    intro r
    unfold written
    split_ifs <;> rfl
  unfold row write
  split_ifs with hid
  · subst hid
    rw [find_map hsame]
    refine Option.map_congr fun r hr => ?_
    unfold written
    rw [if_pos (List.find?_some hr)]
  · refine find_map_other hsame (fun r hr => if_neg ?_) _
    rw [Bool.and_eq_true, decide_eq_true_eq] at hr
    simp [hr.2, hid]

theorem row_delete (t : Table) (serverID id other : ℕ) :
    (t.delete serverID id).row serverID other =
      if other = id then none else t.row serverID other := by
  split_ifs with hid
  · subst hid
    refine List.find?_eq_none.mpr fun r hr => ?_
    obtain ⟨r₀, -, rfl⟩ := List.mem_map.mp hr
    unfold struck
    split_ifs with hcond
    · simp [Record.live]
    · exact hcond
  · have hsame : ∀ r : Record, ((struck serverID id r).live serverID &&
        decide ((struck serverID id r).id = other)) =
          (r.live serverID && decide (r.id = other)) := by
      intro r
      unfold struck
      split_ifs with hcond
      · rw [Bool.and_eq_true, decide_eq_true_eq] at hcond
        simp [hcond.2, Ne.symm hid]
      · rfl
    refine find_map_other hsame (fun r hr => if_neg ?_) _
    rw [Bool.and_eq_true, decide_eq_true_eq] at hr
    simp [hr.2, hid]

theorem row_insert (h : r.id ∉ t.records.map fun r => r.id) (hlive : r.live serverID = true)
    (other : ℕ) : (t.insert r h).row serverID other =
      if other = r.id then some r else t.row serverID other := by
  unfold row insert
  rw [List.find?_cons, hlive, Bool.true_and]
  by_cases hid : r.id = other
  · simp [hid]
  · simp [hid, Ne.symm hid]

end Table

end MumbleServer.ChannelStore
