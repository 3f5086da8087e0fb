import Mathlib.Data.List.Nodup
import Raft.Settings.Validate
import Raft.Proofs.Action

/-!
# What valid settings promise

A node starts only with settings that obey the rules. Elections and commits rely on two of them: the
node is one of the members, and no member is named twice.
-/

namespace Raft

open SettingsError (require)

theorem SettingsError.kept_of_require {kept : Bool} {text : String}
    (h : require kept text = .ok ()) : kept = true := by
  unfold require at h
  split at h
  · assumption
  · cases h

namespace Settings

theorem nodup_of_validateIds {seen ids : List NodeId} (h : validateIds seen ids = .ok ()) :
    ids.Nodup ∧ ∀ id ∈ ids, id ∉ seen := by
  induction ids generalizing seen with
  | nil => exact ⟨List.nodup_nil, nofun⟩
  | cons id rest ih =>
    unfold validateIds at h
    obtain ⟨_, -, h⟩ := exists_of_bind_eq_ok h
    obtain ⟨_, hseen, hrest⟩ := exists_of_bind_eq_ok h
    have hnew := SettingsError.kept_of_require hseen
    obtain ⟨hnodup, hnot⟩ := ih hrest
    refine ⟨List.nodup_cons.2 ⟨fun hid => ?_, hnodup⟩, fun x hx => ?_⟩
    · exact hnot id hid (List.mem_cons_self ..)
    · rcases List.mem_cons.1 hx with rfl | hx
      · simpa using hnew
      · exact fun hxs => hnot x hx (List.mem_cons_of_mem _ hxs)

theorem members_of_validate {s : Settings} (h : s.validate = .ok ()) :
    s.cluster.node ∈ s.cluster.members.map Member.id ∧ (s.cluster.members.map Member.id).Nodup := by
  unfold validate at h
  obtain ⟨_, hcluster, -⟩ := exists_of_bind_eq_ok h
  unfold Cluster.validate at hcluster
  obtain ⟨_, -, hcluster⟩ := exists_of_bind_eq_ok hcluster
  obtain ⟨_, -, hcluster⟩ := exists_of_bind_eq_ok hcluster
  obtain ⟨_, hnode, hids⟩ := exists_of_bind_eq_ok hcluster
  refine ⟨?_, (nodup_of_validateIds hids).1⟩
  obtain ⟨m, hm, hid⟩ := List.any_eq_true.1 (SettingsError.kept_of_require hnode)
  exact List.mem_map.2 ⟨m, hm, by simpa using hid⟩

end Settings

end Raft
