import MumbleServer.WholeEdits

/-! # The handler of ChannelStates with and without the database

`ServerOps.handleChannelState` knows of the database only whether it takes the row of a new channel,
new metadata and new links, and of its rows only the IDs.  It is what
`ChannelStore.handleChannelState` comes to, whatever the database answers to each statement, so that
what is proved of runs of the server holds of the handler with both sides of the channel manager. -/

namespace MumbleServer.ChannelStore

open ServerOps

/-- What the statements of a message come to: the links are taken if every statement of the
transaction is. -/
def Outcome.answers (o : Outcome) (s : Store) (m : ChannelState) : Answers where
  insert := o.create
  update := o.update
  links := (s.memory.getChannel m.channelID).any fun ch =>
    o.links.succeeds (s.linkUpdates ch (m.desiredLinks ch.links))

section site
variable {m : ChannelState} (d : Desk) (ok : Bool)

theorem site_channels : d.site.channels = d.store.memory := rfl

theorem ids_write (t : Table) (serverID id : ℕ) (f : Record → Record) :
    (t.write serverID id f).records.map (fun r => r.id) = t.records.map fun r => r.id := by
  unfold Table.write
  rw [List.map_map]
  exact List.map_congr_left fun r _ => Table.written_id serverID id f r

theorem ids_execute {tx : Tx} {t t' : Table} {serverID : ℕ} {updated : List (ℕ × List ℕ)}
    (h : tx.execute t serverID updated = some t') :
    t'.records.map (fun r => r.id) = t.records.map fun r => r.id := by
  have hdone := statements_of_execute h
  clear h
  induction updated generalizing t with
  | nil => rw [Option.some.inj hdone]
  | cons e rest ih =>
    rw [List.foldlM_cons] at hdone
    obtain ⟨t₁, h₁, hdone⟩ := Option.bind_eq_some_iff.mp hdone
    split_ifs at h₁
    obtain rfl := Option.some.inj h₁
    exact (ih hdone).trans (ids_write ..)

theorem site_eq {s : Store}
    (hids : s.table.records.map (fun r => r.id) = d.store.table.records.map fun r => r.id) :
    Desk.site { d with store := s } = d.site.setChannels s.memory := by
  unfold Desk.site Site.setChannels
  rw [hids]

theorem site_editMetadata {ch : Channel} (hch : d.store.memory.getChannel m.channelID = some ch) :
    (Desk.site { d with store := (editMetadata d.store m ok).1 }, (editMetadata d.store m ok).2) =
      updateMetadata d.site m ok := by
  unfold editMetadata updateMetadata Store.update
  rw [hch, hasUpdates_opts]
  cases m.hasMetadataChange with
  | false => rfl
  | true =>
    cases ok with
    | false => rfl
    | true => exact Prod.ext (site_eq d (ids_write ..)) rfl

theorem site_editLinks {node : Channel} (hnode : d.store.memory.getChannel m.channelID = some node)
    (desired : List ℕ) (tx : Tx) :
    (Desk.site { d with store := (editLinks d.store m desired tx).1 },
      (editLinks d.store m desired tx).2) =
      if m.hasLinkChange then
        match d.site.updateLinks m.channelID desired
            (tx.succeeds (d.store.linkUpdates node desired)) with
        | (s, none) => (s, refused { channelID := m.channelID, type := .permission })
        | (s, some outs) => (s, outs)
      else (d.site, []) := by
  unfold editLinks Store.updateLinks Site.updateLinks Channels.updateLinks
  rw [site_channels, hnode, ← execute_isSome tx d.store.table d.store.serverID]
  cases m.hasLinkChange with
  | false => rfl
  | true =>
    rw [if_neg Bool.true_eq_false.mp, if_pos rfl]
    dsimp only
    split_ifs with hbad hstable hfails
    · rfl
    · rfl
    · rw [Option.isSome_eq_false_iff, Option.isNone_iff_eq_none] at hfails
      rw [hfails]
    · obtain ⟨t, ht⟩ := Option.isSome_iff_exists.mp (Bool.of_not_eq_false hfails)
      rw [ht]
      exact Prod.ext (site_eq d (ids_execute ht)) rfl

theorem site_editChannel (cfg : Config) {ch : Channel}
    (hch : d.store.memory.getChannel m.channelID = some ch) (u : User)
    (hmay : ¬mayUpdate cfg d.site u m ch = false) (o : Outcome) :
    (Desk.site { d with store := (editChannel d.store m ch o).1 }, (editChannel d.store m ch o).2) =
      updateChannel cfg d.site u m ch (o.answers d.store m) := by
  -- the transaction does not see what the new metadata are
  obtain ⟨-, hmemory, -, -⟩ := editMetadata_spec hch o.update
  have hlinks : (o.answers d.store m).links = o.links.succeeds
      ((editMetadata d.store m o.update).1.linkUpdates (retitled m ch)
        (m.desiredLinks ch.links)) := by
    rw [linkUpdates_map (retitled_id m) (retitled_links m) hmemory]
    unfold Outcome.answers
    rw [hch]
    rfl
  unfold updateChannel editChannel
  rw [if_neg hmay, hlinks, show (o.answers d.store m).update = o.update from rfl,
    ← site_editMetadata d o.update hch]
  refine (congrArg (fun p : Site × List Output => (p.1, (editMetadata d.store m o.update).2 ++ p.2))
    (site_editLinks { d with store := (editMetadata d.store m o.update).1 }
      (after_editMetadata hch o.update o.links).1 _ o.links)).trans ?_
  dsimp only
  split_ifs
  · rcases Site.updateLinks _ m.channelID (m.desiredLinks ch.links) _ with ⟨s, _ | outs⟩ <;> rfl
  · exact Prod.ext rfl (List.append_nil _)

theorem site_createChannel (cfg : Config) (u : User) (o : Outcome) :
    ((createChannel m cfg d u o).1.site, (createChannel m cfg d u o).2) =
      ServerOps.createChannel cfg d.site u m o.newID o.create := by
  unfold createChannel ServerOps.createChannel Store.create Site.create Channels.create
  have hrows : d.site.rows = d.store.table.records.map fun r => r.id := rfl
  rw [site_channels, hrows]
  cases hcreate : o.create with
  | false =>
    rw [dif_pos (.inl rfl), if_pos rfl]
    split_ifs <;> rfl
  | true =>
    by_cases hold : o.newID ∈ d.store.table.records.map fun r => r.id
    · rw [dif_pos (.inr hold), if_pos hold]
      split_ifs <;> rfl
    · rw [dif_neg (by simpa using hold), if_neg hold, if_neg Bool.true_eq_false.mp]
      split_ifs <;> rfl

end site

/-- The handler does to the server and sends what `ServerOps.handleChannelState` does, whatever the
database answers to each of the statements. -/
theorem handleChannelState_site (cfg : Config) (d : Desk) (m : ChannelState) (c : SessionRef)
    (o : Outcome) :
    ((handleChannelState m cfg d c o).1.site, (handleChannelState m cfg d c o).2) =
      ServerOps.handleChannelState cfg d.site m c o.newID (o.answers d.store m) := by
  unfold handleChannelState ServerOps.handleChannelState sender
  have hactive : d.site.state.registry.active c = d.state.registry.active c := rfl
  have husers : d.site.users = d.state.server.users := rfl
  rw [hactive, husers]
  by_cases hact : d.state.registry.active c = false
  · rw [if_pos hact, if_pos hact]
  · rw [if_neg hact, if_neg hact]
    cases d.state.server.users.snapshot c.sessionID with
    | none => rfl
    | some u =>
      split_ifs with hnew
      · exact site_createChannel d cfg u o
      · rw [site_channels]
        cases hch : d.store.memory.getChannel m.channelID with
        | none => rfl
        | some ch =>
          dsimp only
          by_cases hmay : mayUpdate cfg d.site u m ch = false
          · unfold updateChannel
            rw [if_pos hmay, if_pos hmay]
          · rw [if_neg hmay]
            exact site_editChannel d cfg hch u hmay o

end MumbleServer.ChannelStore
