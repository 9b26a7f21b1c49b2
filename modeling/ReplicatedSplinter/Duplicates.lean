import ReplicatedSplinter.SessionGuarantees
/-!
# A request twice in the log

A mutation whose RPC was not accepted is sent again (`client.cpp:152-176`), and the first copy may still be
appended: nothing in an entry says whose it is, and `commit` (`splinterdb_state_machine.cpp:35-77`) runs
whatever it is handed. So a request may stand at two positions of the log. `retry_takes_effect_last`: the
replicas then hold what the last copy alone would have left; what the first copy alone would have left is
lost exactly when someone wrote something else in between, and nobody has written the key since.
-/

namespace ReplicatedSplinter
open ByteCodec KeyValue ReplicatedLog

/-- The map after the requests, from an empty one. -/
def mapAfter (subs : List Submitted) : Map Bytes Bytes := replay (subs.filterMap Submitted.write?) fun _ => none

theorem split_two {α : Type} {l : List α} {p q : Nat} {x y : α} (hpq : p < q) (hp : l[p]? = some x)
    (hq : l[q]? = some y) :
    l = l.take p ++ x :: ((l.take q).drop (p + 1) ++ y :: l.drop (q + 1)) ∧
      l.eraseIdx p = l.take p ++ ((l.take q).drop (p + 1) ++ y :: l.drop (q + 1)) ∧
      l.eraseIdx q = l.take p ++ x :: ((l.take q).drop (p + 1) ++ l.drop (q + 1)) := by
  obtain ⟨hplt, rfl⟩ := List.getElem?_eq_some_iff.1 hp
  obtain ⟨hqlt, rfl⟩ := List.getElem?_eq_some_iff.1 hq
  have hfront : l.take q = l.take p ++ l[p] :: (l.take q).drop (p + 1) := by
    have hlt : p < (l.take q).length := by
      rw [List.length_take]
      omega
    have h := List.take_append_drop p (l.take q)
    rw [List.drop_eq_getElem_cons hlt, List.take_take, Nat.min_eq_left (Nat.le_of_lt hpq), List.getElem_take] at h
    exact h.symm
  have hback : l.drop (p + 1) = (l.take q).drop (p + 1) ++ l[q] :: l.drop (q + 1) := by
    have h := congrArg (List.drop (p + 1)) (List.take_append_drop q l)
    rw [List.drop_eq_getElem_cons hqlt, List.drop_append_of_le_length (by rw [List.length_take]; omega)] at h
    exact h.symm
  refine ⟨?_, ?_, ?_⟩
  · conv_lhs => rw [← List.take_append_drop p l, List.drop_eq_getElem_cons hplt, hback]
  · rw [List.eraseIdx_eq_take_drop_succ, hback]
  · rw [List.eraseIdx_eq_take_drop_succ]
    conv_lhs => rw [hfront]
    rw [List.append_assoc, List.cons_append]

theorem key_of_lastNaming {subs : List Submitted} {k : Bytes} {req : MutationRpc} (h : lastNaming subs k = some req) :
    req.key = k := by simpa using List.find?_some h

/-- Two requests that name the same key ask for the same when they leave the same. -/
theorem write_eq_iff {req req' : MutationRpc} (h : req.key = req'.key) :
    req.write = req'.write ↔ req.write.binding = req'.write.binding := by
  refine ⟨fun heq => by rw [heq], fun heq => ?_⟩
  rw [← write_key, ← write_key] at h
  cases hw : req.write
  cases hw' : req'.write
  simp_all

namespace Group
variable {ι S : Type} [DecidableEq ι]

/-- **The last copy counts.** Two calls with the same request, both in the log and both applied at a replica:
its map is the one without the first copy; and it is the one without the second copy if and only if the key
has been named again since, or the last request that named it in between asked for the same. -/
theorem retry_takes_effect_last (nu : Nuraft) (hlim : ∀ n, nu.fits n = true → n < 2 ^ 31)
    (db : ι → Nat → SplinterDB S) (view : S → Map Bytes Bytes) (hmap : ∀ r i, IsMap view (db r i)) (init : S)
    (hinit : ∀ k, view init k = none) (g : Group ι S) (hg : Reachable nu db init g) (t t' : Nat) (c c' : Call ι)
    (hc : g.calls[t]? = some c) (hc' : g.calls[t']? = some c') (hsame : c'.req = c.req) (p q : Nat)
    (hp : c.entry = some p) (hq : c'.entry = some q) (hpq : p < q) (r : ι) (happlied : q < g.applied r) :
    view (g.world.replicas r).sm.store = mapAfter ((g.submitted.take (g.applied r)).eraseIdx p) ∧
    (view (g.world.replicas r).sm.store = mapAfter ((g.submitted.take (g.applied r)).eraseIdx q) ↔
      lastNaming ((g.submitted.take (g.applied r)).drop (q + 1)) c.req.key ≠ none ∨
      ∀ req, lastNaming ((g.submitted.take q).drop (p + 1)) c.req.key = some req → req.write = c.req.write) := by
  obtain ⟨hcl, h⟩ := reachable_inv hg
  have hview : view (g.world.replicas r).sm.store = mapAfter (g.submitted.take (g.applied r)) := by
    rw [store_eq hcl, view_prefix_requests hlim (hmap r) hinit h.builds]
    rfl
  generalize hdone : g.submitted.take (g.applied r) = done at hview ⊢
  have hfirst : done[p]? = some (.request c.req) := by
    rw [← hdone, List.getElem?_take_of_lt (by omega)]
    exact h.entries t c p hc hp
  have hsecond : done[q]? = some (.request c.req) := by
    rw [← hdone, List.getElem?_take_of_lt happlied, ← hsame]
    exact h.entries t' c' q hc' hq
  have hbetween : done.take q = g.submitted.take q := by
    rw [← hdone, List.take_take, Nat.min_eq_left (Nat.le_of_lt happlied)]
  obtain ⟨hall, hwithout, hwithout'⟩ := split_two hpq hfirst hsecond
  have hwrite : Submitted.write? (.request c.req) = some c.req.write := rfl
  rw [hview]
  refine ⟨?_, ?_⟩
  · conv_lhs => rw [hall]
    rw [hwithout, mapAfter, mapAfter]
    simp only [List.filterMap_append, List.filterMap_cons, hwrite]
    exact replay_without_first _ _ _ _ _
  · conv_lhs => lhs; rw [hall]
    rw [hwithout', mapAfter, mapAfter, hbetween]
    simp only [List.filterMap_append, List.filterMap_cons, hwrite]
    rw [replay_without_second, lastWrite_write?, lastWrite_write?, write_key]
    refine or_congr (by simp) ⟨fun hb req hreq => ?_, fun hreq b hb => ?_⟩
    · exact (write_eq_iff (key_of_lastNaming hreq)).2 (hb req.write (by simp [hreq]))
    · obtain ⟨req, hlast, rfl⟩ := Option.map_eq_some_iff.1 hb
      rw [hreq req hlast]

/-- `put "k" "v"` sent twice, `put "k" "u"` of someone else in between: the second copy has undone it. -/
theorem retry_takes_effect_last_undone : ∃ g : Group Bool (Map Bytes Bytes),
    Reachable refNuraft (fun _ _ => mapDB) (fun _ => none) g ∧
    g.submitted = [.request (.put [107] [118]), .request (.put [107] [117]), .request (.put [107] [118])] ∧
    (g.world.replicas true).sm.store = mapAfter (g.submitted.eraseIdx 0) ∧
    (g.world.replicas true).sm.store ≠ mapAfter (g.submitted.eraseIdx 2) := by
  have hother : StateMachine.commitCall refNuraft ((SplinterdbOperation.makePut [107] [117]).encoding refNuraft) =
      .ok (.insert [107] [117]) := by decide
  have h : Reachable refNuraft (fun _ _ => mapDB) (fun _ => none) (start (fun _ => none) : Group Bool (Map Bytes Bytes)) :=
    .refl
  have h := h.tail (.invoke _ true (.put [107] [118]))
  have h := h.tail (.invoke _ true (.put [107] [117]))
  have h := h.tail (.invoke _ true (.put [107] [118]))
  have h := h.tail (.append _ 0 ⟨true, .put [107] [118], none, false⟩ demoPayload rfl rfl (by decide))
  have h := h.tail (.append _ 1 ⟨true, .put [107] [117], none, false⟩ _ rfl rfl rfl)
  have h := h.tail (.append _ 2 ⟨true, .put [107] [118], none, false⟩ demoPayload rfl rfl (by decide))
  have h := h.tail (.store _ true demoPayload _ _ rfl rfl (StateMachine.commitStore_ok demoPayload_call))
  have h := h.tail (.index _ true rfl)
  have h := h.tail (.store _ true _ _ _ rfl rfl (StateMachine.commitStore_ok hother))
  have h := h.tail (.index _ true rfl)
  have h := h.tail (.store _ true demoPayload _ _ rfl rfl (StateMachine.commitStore_ok demoPayload_call))
  have h := h.tail (.index _ true rfl)
  obtain ⟨hfirst, hsecond⟩ := retry_takes_effect_last refNuraft refNuraft_fits _ (fun m => m) (fun _ _ => isMap_mapDB) _
    (fun _ => rfl) _ h 0 2 _ _ rfl rfl rfl 0 2 rfl rfl (by decide) true (by decide)
  refine ⟨_, h, rfl, hfirst, fun heq => ?_⟩
  rcases hsecond.1 heq with hsince | hbetween
  · exact hsince rfl
  · exact absurd (hbetween (.put [107] [117]) rfl) (by decide)

end Group

end ReplicatedSplinter
