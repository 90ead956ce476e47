import MumbleServer.AclCache
import MumbleServer.AclMeaning

/-! # What the evaluator reads

The permissions in a channel depend on the channels above it and above the channel the user is
in, on the ACL and group rows, on the temporary members and, for API accounts, on their table.
Two worlds that are `Alike` in this on a set of channels give the same permissions there. -/

namespace MumbleServer.Acl

open Fallible

/-- The worlds look the same from the channels of `D`, up to the API accounts and the ACL rows. -/
structure MatchAlike (D : ℕ → Prop) (w w' : World) : Prop where
  serverID : w.serverID = w'.serverID
  groups : w.db.groups = w'.db.groups
  dbError : w.dbError = w'.dbError
  temporary : w.temporary = w'.temporary
  chain : ∀ c, D c → w.channels.ancestorChain c = w'.channels.ancestorChain c
  inherit : ∀ c, D c → (w.channels.getChannelWithMeta c).map Prod.snd =
    (w'.channels.getChannelWithMeta c).map Prod.snd
  above : ∀ c, D c → ∀ d ∈ w.channels.ancestorChain c, D d

/-- The worlds look the same from the channels of `D`, up to the API accounts. -/
structure Alike (D : ℕ → Prop) (w w' : World) : Prop extends MatchAlike D w w' where
  acls : w.db.acls = w'.db.acls

section agreement
variable {D : ℕ → Prop} {w w' : World}

section
variable {α : Type} {f : World → α}

theorem look_agrees (h : f w = f w') : (look f).Agrees w w' :=
  agrees_ask (congrArg Except.ok h)

theorem query_agrees (hdb : w.dbError = w'.dbError) (h : f w = f w') : (query f).Agrees w w' := by
  apply agrees_ask
  rw [hdb, h]

theorem eq_of_query {a : α} (h : (query f).on w = .ok a) : a = f w := by
  rw [query, on_ask] at h
  split at h
  · cases h
  · exact (Except.ok.inj h).symm

end

namespace MatchAlike
variable (h : MatchAlike D w w')
include h

variable (name : String)

theorem matchSub {target : ℕ} (ht : D target) (context : ℕ) {u : Option Authorization}
    (hu : ∀ v ∈ u, D v.channelID) : (matchSub name target context u).Agrees w w' := by
  cases u with
  | none => exact agrees_pure _
  | some u =>
    refine (look_agrees (h.chain target ht)).bind fun path => ?_
    dsimp only
    split
    · exact agrees_pure _
    · refine (agrees_pure _).ite ?_
      refine (look_agrees (h.chain _ (hu u rfl))).bind fun home => ?_
      exact (agrees_pure _).ite (agrees_pure _)

theorem temporaryMatch (key : GroupKey) (id : UInt32) (u : Option Viewer) :
    (temporaryMatch key id u).Agrees w w' :=
  look_agrees (by simp only [World.temporaryMembers, h.temporary])

theorem groupAt (cid : ℕ) (rows : List ChannelGroup) : (groupAt name cid rows).Agrees w w' := by
  cases rows with
  | cons g rest => exact agrees_pure _
  | nil =>
    refine (look_agrees ?_).bind fun _ => agrees_pure _
    simp only [World.temporaryMembers, h.temporary]

theorem groupStack (context : ℕ) (chain : List ℕ) :
    (groupStack name context chain).Agrees w w' := by
  induction chain with
  | nil => exact agrees_pure _
  | cons cid rest ih =>
    have hrows : w.groupRows cid name = w'.groupRows cid name := by
      simp only [World.groupRows, h.groups, h.serverID]
    refine (query_agrees h.dbError hrows).bind fun rows => (h.groupAt ..).bind fun g => ?_
    cases g with
    | none => exact ih
    | some g =>
      refine (agrees_pure _).ite ((agrees_pure _).ite ?_)
      exact ih.bind fun _ => agrees_pure _

theorem groupMembers (id : UInt32) (u : Option Viewer) (stack : List ChannelGroup)
    (isMember : Bool) : (groupMembers name id u stack isMember).Agrees w w' := by
  induction stack generalizing isMember with
  | nil => exact agrees_pure _
  | cons g below ih =>
    exact ((agrees_pure _).ite (h.temporaryMatch ..)).bind fun _ => ih _

theorem storedGroup (id : UInt32) (name : String) {context : ℕ} (hc : D context)
    (u : Option Viewer) : (storedGroup id name context u).Agrees w w' := by
  refine (look_agrees (h.chain context hc)).bind fun chain => (agrees_throw _).ite ?_
  exact (h.groupStack ..).bind fun stack => h.groupMembers ..

section subject
variable (fold : Char → Char) {id : UInt32} (hapi : (apiAdmin id).Agrees w w') {target : ℕ}
  (ht : D target) {u : Option Viewer} (hu : ∀ v ∈ u, D v.channelID)

include hapi ht hu

theorem selectorHolds (s : Selector) {context : ℕ} (hc : D context) :
    (selectorHolds fold s id target context u).Agrees w w' := by
  have hauth : ∀ v ∈ u.map Viewer.toAuthorization, D v.channelID := by
    intro v hv
    obtain ⟨x, hx, rfl⟩ := Option.map_eq_some_iff.mp hv
    exact hu x hx
  unfold Acl.selectorHolds
  iterate 8 refine (agrees_pure _).ite ?_
  refine (h.matchSub _ ht _ hauth).ite ((agrees_pure _).ite ?_)
  exact hapi.ite (h.storedGroup id s.name hc u)

theorem matchSelector (s : Selector) {definition : ℕ} (hd : D definition) :
    (matchSelector fold s id target definition u).Agrees w w' := by
  refine (agrees_pure _).ite ?_
  refine (h.selectorHolds fold hapi ht hu s ?_).bind fun _ => agrees_pure _
  split
  · exact hd
  · exact ht

theorem entryMatches {row : ChannelACL} (hrow : D row.channelID) :
    (entryMatches fold row id target u).Agrees w w' := by
  unfold Acl.entryMatches
  split
  · exact agrees_pure _
  · exact h.matchSelector fold hapi ht hu _ hrow

theorem visitRows (cid : ℕ) {rows : List ChannelACL} (hrows : ∀ row ∈ rows, D row.channelID)
    (t : Tally) : (visitRows fold id target cid u rows t).Agrees w w' := by
  induction rows generalizing t with
  | nil => exact agrees_pure _
  | cons row rows ih =>
    exact (h.entryMatches fold hapi ht hu (hrows row List.mem_cons_self)).bind fun _ =>
      ih (fun row hr => hrows row (List.mem_cons_of_mem _ hr)) _

end subject

end MatchAlike

namespace Alike
variable (h : Alike D w w') (fold : Char → Char) {id : UInt32} (hapi : (apiAdmin id).Agrees w w')
  {target : ℕ} (ht : D target) {u : Option Viewer} (hu : ∀ v ∈ u, D v.channelID)
include h hapi ht hu

theorem visitChannels (dflt : Permission) {path : List ℕ} (hpath : ∀ c ∈ path, D c) (t : Tally) :
    (visitChannels fold dflt id target u path t).Agrees w w' := by
  induction path generalizing t with
  | nil => exact agrees_pure _
  | cons cid rest ih =>
    have hcid := hpath cid List.mem_cons_self
    have hrows : w.aclRows cid = w'.aclRows cid := by
      simp only [World.aclRows, h.acls, h.serverID]
    have hrest : ∀ t, (do
        let rows ← query fun w => w.aclRows cid
        let t ← Acl.visitRows fold id target cid u rows t
        if ¬ t.traverse ∧ ¬ t.write then pure none
        else Acl.visitChannels fold dflt id target u rest t : Query _).Agrees w w' := by
      intro t
      have hquery : (query fun w => w.aclRows cid).Agrees w w' := query_agrees h.dbError hrows
      refine hquery.bind_of_ok fun rows hq => ?_
      have hin : ∀ row ∈ rows, D row.channelID := by
        intro row hr
        rw [eq_of_query hq] at hr
        rw [aclRows_channelID hr]
        exact hcid
      refine (h.visitRows fold hapi ht hu cid hin t).bind fun t => ?_
      exact (agrees_pure _).ite (ih (fun c hc => hpath c (List.mem_cons_of_mem _ hc)) t)
    -- the channel may have changed, only its flag is read
    have hinherit := h.inherit cid hcid
    unfold Fallible.Agrees Acl.visitChannels
    rw [on_bind, on_bind, look, on_ask, on_ask]
    revert hinherit
    rcases w.channels.getChannelWithMeta cid with _ | ⟨ch, inherit⟩ <;>
      rcases w'.channels.getChannelWithMeta cid with _ | ⟨ch', inherit'⟩ <;> intro hinherit
    · rfl
    · cases hinherit
    · cases hinherit
    · obtain rfl : inherit = inherit' := Option.some.inj hinherit
      exact hrest _

theorem evaluate : (evaluate fold id target u).Agrees w w' := by
  have hchain : (look fun w => w.channels.ancestorChain target).Agrees w w' :=
    look_agrees (h.chain target ht)
  refine hchain.bind_of_ok fun chain hc => (agrees_throw _).ite ?_
  obtain rfl : w.channels.ancestorChain target = chain := Except.ok.inj hc
  refine Fallible.Agrees.bind ?_ fun dflt => ?_
  · exact Fallible.Agrees.ite (hapi.bind fun _ => agrees_pure _) (agrees_pure _)
  · have hpath : ∀ c ∈ (w.channels.ancestorChain target).reverse, D c :=
      fun c hc => h.above target ht c (List.mem_reverse.mp hc)
    refine (h.visitChannels fold hapi ht hu dflt hpath _).bind fun t => ?_
    cases t <;> exact agrees_pure _

end Alike

end agreement

/-- The permissions of a subject are the same in worlds that are alike around the channel and the
one its user is in. -/
theorem direct_agrees (fold : Char → Char) {D : ℕ → Prop} {sv sv' : Server} {q : Subject × ℕ}
    (h : Alike D sv.world sv'.world) (hapi : (apiAdmin q.1.userID).Agrees sv.world sv'.world)
    (huser : resolveUser sv.users q.1 = resolveUser sv'.users q.1) (ht : D q.2)
    (hu : ∀ u, resolveUser sv.users q.1 = .ok (some u) → D u.channelID) :
    (source fold).direct sv q = (source fold).direct sv' q := by
  have hstart : (source fold).start sv q = (source fold).start sv' q := by
    show permissionsStart fold sv q = permissionsStart fold sv' q
    unfold permissionsStart
    rw [huser]
  unfold GuardedCache.Source.direct
  rw [← hstart]
  cases hs : (source fold).start sv q with
  | answer v => rfl
  | compute key p =>
    obtain ⟨u, hres, -, rfl⟩ := permissionsStart_compute hs
    have hhome : ∀ v ∈ u.map viewer, D v.channelID := by
      intro v hv
      obtain ⟨x, rfl, rfl⟩ := Option.map_eq_some_iff.mp hv
      exact hu x hres
    have hsame : Reads.on ((source fold).part sv) _ = Reads.on ((source fold).part sv') _ :=
      h.evaluate fold hapi ht hhome
    dsimp only
    rw [hsame]

end MumbleServer.Acl
