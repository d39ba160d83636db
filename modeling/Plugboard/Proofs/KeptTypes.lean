import Plugboard.Proofs.Contents
import Plugboard.Proofs.LayoutVariables
import Plugboard.Proofs.InferenceScope

/-!
# The variables of kept types

What inference keeps on blocks is unified with what was kept there before. If both have their
variables in a scope, so have all types of the canvas afterwards.
-/

namespace Plugboard

open Plugboard.Graph

variable {scope : String → Prop}

namespace Subst

theorem Within.reconcile {s : Subst} (hs : s.Within scope) {a b : Ty} (ha : a.Over scope)
    (hb : b.Over scope) : (s.reconcile a b).Within scope := by
  rw [Subst.reconcile]
  cases hunify : unify (s.apply a) (s.apply b) with
  | error e => exact hs
  | ok u =>
      refine Within.compose ((unify_eliminates hunify).within fun v hv => ?_) hs
      rcases List.mem_append.1 hv with hv | hv
      · exact hs.apply ha v hv
      · exact hs.apply hb v hv

end Subst

namespace Graph

variable {g : Graph} {K : BlockKind → Prop}

theorem Every.over_socketTy (hg : g.Every (·.Over scope) K) {s : SocketId} {t : Ty}
    (h : g.socketTy s = .ok (some t)) : t.Over scope := by
  obtain ⟨socket, hsocket, ht⟩ := map_eq_ok.1 h
  obtain ⟨t', ht', hover⟩ := hg.socket (socket_eq_ok.1 hsocket)
  cases ht'.symm.trans ht
  exact hover

theorem Every.over_placeTy (hg : g.Every (·.Over scope) K) {place : Place} {t : Ty}
    (h : g.placeTy place = .ok (some t)) : t.Over scope := by
  cases place with
  | socket s => exact hg.over_socketTy h
  | param b name =>
      obtain ⟨block, hblock, h⟩ := bind_eq_ok.1 h
      exact hg.param (block_eq_ok.1 hblock) (Except.ok.inj h)

theorem over_places {tag : Tag} {t : Ty} (ht : t.Over scope) {placed : List (Place × Ty)}
    (h : g.places tag t = .ok placed) : ∀ p ∈ placed, p.2.Over scope := by
  cases tag with
  | socket s =>
      rw [places] at h
      cases h
      split <;> simp [ht]
  | block b =>
      obtain ⟨block, -, h⟩ := bind_eq_ok.1 h
      dsimp only at h
      split at h
      · cases h
        simpa using ht
      · rename_i name params _ _
        obtain ⟨result, -, h⟩ := bind_eq_ok.1 h
        cases h
        obtain ⟨hargs, hrest⟩ := ht.uncurry params.length
        intro p hp
        rcases List.mem_append.1 hp with hp | hp
        · rw [← List.map_uncurry_zip_eq_zipWith] at hp
          obtain ⟨⟨name, arg⟩, hmem, rfl⟩ := List.mem_map.1 hp
          exact hargs arg (List.of_mem_zip hmem).2
        · rw [List.mem_singleton.1 hp]
          exact hrest
      · cases h
        simp

theorem over_followers {placed : List (Place × Ty)} (h : ∀ p ∈ placed, p.2.Over scope)
    (blocks : BlockSet) : ∀ p ∈ g.followers placed blocks, p.2.Over scope := by
  intro p hp
  rw [followers, List.mem_filterMap] at hp
  obtain ⟨⟨output, input⟩, -, hp⟩ := hp
  obtain ⟨t, ht, rfl⟩ := Option.map_eq_some_iff.1 hp
  obtain ⟨⟨place, t'⟩, hmem, heq⟩ := List.mem_filterMap.1 (mem_of_getElem?_ofList ht)
  cases place with
  | socket s =>
      cases heq
      exact h (.socket output, t) hmem
  | param b name => cases heq

theorem Every.agreement_within (hg : g.Every (·.Over scope) K) {placed : List (Place × Ty)}
    (hplaced : ∀ p ∈ placed, p.2.Over scope) {s : Subst} (h : g.agreement placed = .ok s) :
    s.Within scope := by
  refine foldlM_invariant (I := (·.Within scope)) h (fun p hp s s' hs hstep => ?_) .empty
  obtain ⟨kept?, hkept, hstep⟩ := bind_eq_ok.1 hstep
  cases kept? with
  | none =>
      cases hstep
      exact hs
  | some kept =>
      cases hstep
      exact hs.reconcile (hplaced p hp) (hg.over_placeTy hkept)

theorem Every.linkAgreement_within (hg : g.Every (·.Over scope) K)
    {links : List (SocketId × SocketId)} {s : Subst} (h : g.linkAgreement links = .ok s) :
    s.Within scope := by
  refine foldlM_invariant (I := (·.Within scope)) h (fun link _ s s' hs hstep => ?_) .empty
  obtain ⟨outputTy, houtput, hstep⟩ := bind_eq_ok.1 hstep
  obtain ⟨inputTy, hinput, hstep⟩ := bind_eq_ok.1 hstep
  cases outputTy with
  | none =>
      cases hstep
      exact hs
  | some a =>
      cases inputTy with
      | none =>
          cases hstep
          exact hs
      | some b =>
          cases hstep
          exact hs.reconcile (hg.over_socketTy houtput) (hg.over_socketTy hinput)

end Graph

namespace GraphM

variable {K : BlockKind → Prop}

theorem every_setPlace (place : Place) {t : Ty} (ht : t.Over scope) :
    Preserves (Every (·.Over scope) K) (setPlace place t) := by
  cases place with
  | socket s => exact every_setTy s ht
  | param b name =>
      refine every_updateBlock b (fun _ => id) fun block h name' t' ht' => ?_
      rw [Std.ExtTreeMap.getElem?_insert] at ht'
      split at ht'
      · cases ht'
        exact ht
      · exact h name' t' ht'

theorem every_annotate {types : Std.ExtTreeMap Tag Ty}
    (htypes : ∀ (tag : Tag) (t : Ty), types[tag]? = some t → t.Over scope) :
    Preserves (Every (·.Over scope) K) (annotate types) := by
  intro g hg
  rw [annotate, ends_bind]
  have hplaces : ∀ entry ∈ types.toList, ∀ g : Graph, g.Every (·.Over scope) K →
      Ends (ask (·.places entry.1 entry.2)) g
        (fun placed g' => (∀ p ∈ placed, p.2.Over scope) ∧ g'.Every (·.Over scope) K)
        (Every (·.Over scope) K) := by
    intro entry hentry g hg
    have hover := htypes entry.1 entry.2 (Std.ExtTreeMap.mem_toList_iff_getElem?_eq_some.1 hentry)
    rw [ends_ask]
    cases hplaced : g.places entry.1 entry.2 with
    | error e => exact hg
    | ok placed => exact ⟨over_places hover hplaced, hg⟩
  refine (Ends.mapM_all hplaces hg).imp (fun placed g₁ ⟨hplaced, hg₁⟩ => ?_) fun _ => id
  have hplaced : ∀ p ∈ placed.flatten, p.2.Over scope := fun p hp => by
    obtain ⟨ps, hps, hp⟩ := List.mem_flatten.1 hp
    exact hplaced ps hps p hp
  refine Preserves.bind (.mapM fun _ _ => preserves_ask _) (fun blocks => ?_) g₁ hg₁
  refine (preserves_ask _).bind fun members => ?_
  intro g₂ hg₂
  rw [ends_bind, ends_get]
  have hall : ∀ p ∈ placed.flatten ++ g₂.followers placed.flatten members, p.2.Over scope :=
    fun p hp => (List.mem_append.1 hp).elim (hplaced p) (over_followers hplaced members p)
  rw [ends_bind, ends_ask]
  cases hs : g₂.agreement (placed.flatten ++ g₂.followers placed.flatten members) with
  | error e => exact hg₂
  | ok s =>
      have hwithin := hg₂.agreement_within hall hs
      refine Preserves.bind (.modify fun g hg => ?_) (fun _ => ?_) g₂ hg₂
      · exact hg.applyTo (fun t ht => hwithin.apply ht) members
      · exact .bind (.forM fun p hp => every_setPlace p.1 (hwithin.apply (hall p hp)))
          fun _ => .pure _

end GraphM

end Plugboard
