import MumbleServer.AclFrame
import MumbleServer.TreeKept

/-! # Rights in the channel one is in

What a user may do in a channel depends on the record of the user and on the channels above
(`AclFrame`).  The operations on channels create, rename, link and remove them, but a channel stays
below its parent as long as it exists.  So a user keeps its rights in the channel it is in, as long
as neither moves and the access control lists stay the same. -/

namespace MumbleServer

/-! ### Channels that stay where they are -/

/-- Every channel is still there, below the same parent. -/
def Grows (cs cs' : Channels) : Prop :=
  ∀ c n, cs.getChannel c = some n → ∃ n', cs'.getChannel c = some n' ∧
    n'.parentID = n.parentID ∧ n'.inheritACL = n.inheritACL

variable {p : List ℕ}

section grows
variable {cs cs' cs'' : Channels}

theorem Grows.path (h : Grows cs cs') {c : ℕ} (hp : IsPath cs c p) : IsPath cs' c p := by
  induction hp with
  | root hn =>
    obtain ⟨n', hn', -⟩ := h _ _ hn
    exact .root hn'
  | child hn hne _ ih =>
    obtain ⟨n', hn', hparent, -⟩ := h _ _ hn
    exact .child hn' hne (hparent ▸ ih)

theorem grows_map (cs : Channels) {f : Channel → Channel} (hid : ∀ d, (f d).id = d.id)
    (hparent : ∀ d, (f d).parentID = d.parentID) (hinherit : ∀ d, (f d).inheritACL = d.inheritACL) :
    Grows cs (cs.map f) := by
  intro c n hn
  exact ⟨f n, by rw [getChannel_map f hid, hn]; rfl, hparent n, hinherit n⟩

theorem grows_cons {ch : Channel} (hnew : ch.id ∉ cs.map Channel.id) : Grows cs (ch :: cs) := by
  intro c n hn
  refine ⟨n, (List.find?_cons_of_neg ?_).trans hn, rfl, rfl⟩
  intro heq
  obtain rfl : ch.id = c := by simpa using heq
  exact hnew (mem_ids_of_getChannel hn)

theorem grows_of_sublist (hnodup : (cs.map Channel.id).Nodup) (hsub : cs'.Sublist cs) :
    Grows cs' cs := by
  intro c n hn
  obtain rfl := id_of_getChannel hn
  exact ⟨n, getChannel_of_mem hnodup (hsub.subset (mem_of_getChannel hn)), rfl, rfl⟩

end grows

namespace Acl

/-- Worlds that differ in the channels are alike along a path that stays. -/
theorem alike_of_grows {w w' : World} (hw : w' = { w with channels := w'.channels })
    (h : Grows w.channels w'.channels) {c : ℕ} (hp : IsPath w.channels c p) :
    Alike (· ∈ p) w w' := by
  refine ⟨⟨?_, ?_, ?_, ?_, fun d hd => ?_, fun d hd => ?_, fun d hd e he => ?_⟩, by rw [hw]⟩
  · rw [hw]
  · rw [hw]
  · rw [hw]
  · rw [hw]
  · obtain ⟨q, hq, -⟩ := hp.of_mem hd
    rw [ancestorChain_of_path hq, ancestorChain_of_path (h.path hq)]
  · obtain ⟨q, hq, -⟩ := hp.of_mem hd
    obtain ⟨n, hn⟩ := hq.getChannel
    obtain ⟨n', hn', -, hinherit⟩ := h d n hn
    simp only [Channels.getChannelWithMeta, hn, hn', Option.map_some, hinherit]
  · obtain ⟨q, hq, hpre⟩ := hp.of_mem hd
    rw [ancestorChain_of_path hq, List.mem_reverse] at he
    exact hpre.subset he

def permissionsOf (fold : Char → Char) (w : World) (u : User) (cid : ℕ) : Permission :=
  if u.isSuperUser then superPermissions
  else
    match (evaluate fold u.userID cid (some (viewer u))).on w with
    | .ok v => v
    | .error _ => 0

theorem permissionsOf_grows (fold : Char → Char) {w w' : World}
    (hw : w' = { w with channels := w'.channels }) (h : Grows w.channels w'.channels) {u : User}
    (hp : IsPath w.channels u.channelID p) :
    permissionsOf fold w u u.channelID = permissionsOf fold w' u u.channelID := by
  have hhome : u.channelID ∈ p := List.mem_of_getLast? hp.getLast
  have hapi : (apiAdmin u.userID).Agrees w w' :=
    query_agrees (by rw [hw]) (by rw [hw])
  have hsame : (evaluate fold u.userID u.channelID (some (viewer u))).on w =
      (evaluate fold u.userID u.channelID (some (viewer u))).on w' := by
    refine (alike_of_grows hw h hp).evaluate fold hapi hhome fun v hv => ?_
    obtain rfl := Option.some.inj hv
    exact hhome
  unfold permissionsOf
  rw [hsame]

end Acl

namespace Moderation

open Acl (permissionsOf subjectOf Permission)

section connected
variable (pol : Policy) {sv : Acl.Server} {u : User}

theorem aclPermissions_of_snapshot (hu : sv.users.snapshot u.sessionID = some u)
    (hsid : u.sessionID ≠ 0) (cid : ℕ) :
    aclPermissions pol sv (subjectOf u) cid = permissionsOf pol.fold sv.world u cid := by
  have hres : Acl.resolveUser sv.users (subjectOf u) = .ok (some u) := by
    simp [Acl.resolveUser, subjectOf, hsid, hu]
  have hstart : (Acl.source pol.fold).start sv (subjectOf u, cid) =
      if u.isSuperUser then .answer Acl.superPermissions
      else .compute (Acl.cacheKey (subjectOf u) cid (some u))
        (Acl.evaluate pol.fold u.userID cid (some (Acl.viewer u))).run := by
    show Acl.permissionsStart pol.fold sv (subjectOf u, cid) = _
    unfold Acl.permissionsStart
    rw [hres]
    rfl
  unfold aclPermissions permissionsOf GuardedCache.Source.direct
  rw [hstart]
  have hon : Reads.on ((Acl.source pol.fold).part sv)
      (Acl.evaluate pol.fold u.userID cid (some (Acl.viewer u))).run =
      (Acl.evaluate pol.fold u.userID cid (some (Acl.viewer u))).on sv.world := rfl
  split_ifs
  · rfl
  · dsimp only
    rw [hon]
    cases (Acl.evaluate pol.fold u.userID cid (some (Acl.viewer u))).on sv.world <;> rfl

def speaks (w : Acl.World) (u : User) (cid : ℕ) : Bool :=
  decide (permissionsOf pol.fold w u cid &&& Permission.speak = Permission.speak)

theorem aclCheck_speak_of_snapshot (hu : sv.users.snapshot u.sessionID = some u)
    (hsid : u.sessionID ≠ 0) (cid : ℕ) :
    aclCheck pol sv (subjectOf u) cid Permission.speak = speaks pol sv.world u cid := by
  rw [aclCheck, speaks, aclPermissions_of_snapshot pol hu hsid]

/-- The super user may speak nowhere. -/
theorem speaks_superUser (w : Acl.World) (hsuper : u.isSuperUser = true) (cid : ℕ) :
    speaks pol w u cid = false := by
  rw [speaks, permissionsOf, if_pos hsuper]
  decide

end connected

end Moderation

end MumbleServer
