import LimWebserver.Net.Http.Table

namespace LimWebserver.Http

open HttpRequestParser

/-!
# Http — a header that arrives in pieces

`recvRequest` executes the parser once for each result of `resv`, and every call of `execute` counts
its offsets from the beginning of what that result has brought.

* `recvHeader_pieces` — the loop over pieces in which no token is cut goes on side by side with one
  call over all the bytes;
* `recvRequest_pieces` — what `recvRequest` returns then.
-/

variable {M : Machine} {lexical_cast : Bytes → Option UInt64} {buff_size : Nat}

/-- The loop, from a piece on. `s` is the parser that is given all the bytes at once. -/
theorem recvHeader_pieces (hM : Grammar M) {bytes pre : Bytes} {query_start : Nat}
    {s t S : HttpRequestParser} {pieces more : List Bytes} (data : Bytes)
    (hwhole : run M bytes 0 bytes (.new M query_start) = some (bytes.length, S))
    (hfin : M.first_final ≤ S.cs) (herr : S.m_error = 0)
    (hcut : bytes = pre ++ pieces.flatten) (hne : pieces ≠ [])
    (hpre : run M bytes 0 pre (.new M query_start) = some (pre.length, s))
    (hrest : run M bytes pre.length pieces.flatten s = some (bytes.length, S))
    (hlive : s.cs ≠ M.error ∧ s.cs < M.first_final)
    (hcs : s.cs = t.cs) (hdata : s.m_data = t.m_data) (herr' : s.m_error = 0 ∧ t.m_error = 0)
    (hpieces : ∀ r ∈ pieces, r ≠ [] ∧ r.length ≤ buff_size) (huncut : uncut M s.cs pieces = true) :
    ∃ data' t', recvHeader M buff_size data 0 t (pieces ++ more) =
      some (.complete data' 0 t', more) ∧ t'.m_data = S.m_data := by
  induction pieces generalizing pre s t data with
  | nil => exact absurd rfl hne
  | cons r pieces ih =>
    obtain ⟨hr, hsize⟩ := hpieces r List.mem_cons_self
    rw [List.flatten_cons] at hcut hrest
    have hlen : bytes.length = pre.length + (r ++ pieces.flatten).length := by
      rw [hcut, List.length_append]
    obtain ⟨u, hu, hu', hulive⟩ := run_append hlive hrest hlen
    have huerr : u.m_error = 0 := (run_keeps hu').2 herr
    unfold uncut at huncut
    split at huncut
    case h_2 => exact absurd huncut Bool.false_ne_true
    case h_1 cs hwalk =>
    -- the buffer holds `r` at its beginning, `bytes` holds it behind `pre`
    have hmem : bytes = pre ++ r ++ pieces.flatten := by rw [hcut, List.append_assoc]
    have hsearch : ∀ xs ys p w, r = xs ++ ys →
        run M (pre ++ r ++ pieces.flatten) (pre.length + ([] : Bytes).length) xs s = some (p, w) →
          w.m_data.m_method ≠ .MSEARCH := by
      intro xs ys p w hxs hw
      rw [← hmem] at hw
      refine hM.no_msearch (x := pre ++ xs) (y := ys ++ pieces.flatten) hwhole hfin herr ?_
        ((run_append_live hpre hlive).trans hw)
      rw [hcut, hxs]
      simp only [List.append_assoc]
    have hsim : Sim pre ([] : Bytes).length .none s t.reset := .start hcs hdata herr'
    have hu₀ : run M (pre ++ r ++ pieces.flatten) (pre.length + ([] : Bytes).length) r s =
        some (pre.length + r.length, u) := by
      rw [← hmem]
      exact hu
    obtain ⟨t', ht', rfl, hsim'⟩ := hsim.run (x := []) (z := data.drop (0 + r.length)) rfl hwalk
      hu₀ huerr hsearch
    replace ht' : run M (write data 0 r) 0 r t.reset = some (r.length, t') := ht'
    by_cases hp : pieces = []
    · -- the last piece completes the header
      subst hp
      obtain ⟨-, rfl⟩ := Prod.mk.inj (Option.some.inj hu')
      have hx : r ++ [] = r := List.append_nil r
      have hlast : run M (write data 0 (r ++ [])) 0 (r ++ []) t.reset = some (r.length, t') := by
        rw [hx]
        exact ht'
      obtain ⟨data', hdata', -⟩ := recvHeader_complete (hx.symm ▸ hsize) hr hlast
        hsim'.error.2 (hsim'.cs ▸ hfin)
      rw [hx] at hdata'
      exact ⟨data', t', hdata', hsim'.data.symm⟩
    · have hflat : pieces.flatten ≠ [] := by
        obtain ⟨r', hr'⟩ := List.exists_mem_of_ne_nil _ hp
        exact fun h =>
          (hpieces r' (List.mem_cons_of_mem _ hr')).1 (List.flatten_eq_nil_iff.mp h r' hr')
      have hulive := hulive hflat
      obtain ⟨data', hdata'⟩ := recvHeader_continue hr hsize ht' hsim'.error.2 (hsim'.cs ▸ hulive)
      have hpre' : run M bytes 0 (pre ++ r) (.new M query_start) = some ((pre ++ r).length, u) := by
        rw [run_append_live hpre hlive, hu, List.length_append]
      rw [← List.length_append] at hu'
      obtain ⟨data'', t'', h'', hd''⟩ := ih data' hmem hp hpre' hu' hulive
        hsim'.cs hsim'.data hsim'.error (fun r' hr' => hpieces r' (List.mem_cons_of_mem _ hr'))
        huncut
      exact ⟨data'', t'', hdata'.trans h'', hd''⟩

end LimWebserver.Http
