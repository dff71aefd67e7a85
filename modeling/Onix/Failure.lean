import Onix.Library.Outcome

namespace onix

/-- The asserted expressions of the modelled functions, by function and purpose.
`assertion_failure` prints the expression and spins, so what matters is which one failed. -/
inductive Assertion where
  /-- `!list_search(list, node)` in `list_push` and `list_pushback` -/
  | list_push_absent
  /-- `!list_empty(list)` in `list_pop` -/
  | list_pop_empty
  /-- `!list_empty(list)` in `list_popback` -/
  | list_popback_empty
  /-- `node->prev != NULL` in `list_remove` -/
  | list_remove_prev
  /-- `node->next != NULL` in `list_remove` -/
  | list_remove_next
  /-- `node->next == NULL` in `list_insert_sort` -/
  | list_insert_sort_next
  /-- `node->prev == NULL` in `list_insert_sort` -/
  | list_insert_sort_prev
  /-- `!get_interrupt_state()` in `task_search` -/
  | task_search_intr
  /-- `!get_interrupt_state()` in `schedule` -/
  | schedule_intr
  /-- `next != NULL` in `schedule` -/
  | schedule_next
  /-- `next->magic == ONIX_MAGIC` in `schedule` -/
  | schedule_magic
  /-- `!get_interrupt_state()` in `task_block` -/
  | task_block_intr
  /-- `task->node.next == NULL` in `task_block` -/
  | task_block_next
  /-- `task->node.prev == NULL` in `task_block` -/
  | task_block_prev
  /-- `state != TASK_READY && state != TASK_RUNNING` in `task_block` -/
  | task_block_state
  /-- `!get_interrupt_state()` in `task_unblock` -/
  | task_unblock_intr
  /-- `task->node.next == NULL` in `task_unblock` -/
  | task_unblock_next
  /-- `task->node.prev == NULL` in `task_unblock` -/
  | task_unblock_prev
  /-- `!get_interrupt_state()` in `task_sleep` -/
  | task_sleep_intr
  /-- `current->node.next == NULL` in `task_sleep` -/
  | task_sleep_next
  /-- `current->node.prev == NULL` in `task_sleep` -/
  | task_sleep_prev
  /-- `!get_interrupt_state()` in `task_wakeup` -/
  | task_wakeup_intr
  /-- `vertor == 0x20` in `clock_handler` -/
  | clock_vector
  /-- `task->magic == ONIX_MAGIC` in `clock_handler` -/
  | clock_magic
  /-- `mutex->value == false` in `mutex_lock` -/
  | mutex_lock_free
  /-- `mutex->value == true` after the increment in `mutex_lock` -/
  | mutex_lock_held
  /-- `mutex->value == true` in `mutex_unlock` -/
  | mutex_unlock_held
  /-- `mutex->value == false` after the decrement in `mutex_unlock` -/
  | mutex_unlock_free
  /-- `task->magic == ONIX_MAGIC` in `mutex_unlock` -/
  | mutex_unlock_magic
  /-- `lock->repeat == 0` in `spin_lock` -/
  | spin_lock_repeat
  /-- `lock->holder == current` in `spin_unlock` -/
  | spin_unlock_holder
  /-- `lock->repeat == 1` in `spin_unlock` -/
  | spin_unlock_repeat
  /-- `memory_base == MEMORY_BASE` in `memory_init` -/
  | memory_init_base
  /-- `(memory_size & 0xfff) == 0` in `memory_init` -/
  | memory_init_align
  /-- `free_pages > 0` in `get_page` -/
  | get_page_free
  /-- `ASSERT_PAGE(addr)` in `put_page` -/
  | put_page_align
  /-- `idx >= start_page && idx < total_pages` in `put_page` -/
  | put_page_range
  /-- `memory_map[idx] >= 1` in `put_page` -/
  | put_page_used
  /-- `free_pages > 0 && free_pages < total_pages` in `put_page` -/
  | put_page_free
  /-- `ASSERT_PAGE(pde)` in `set_cr3` -/
  | set_cr3_align
  /-- `count > 0` in `scan_page` -/
  | scan_page_count
  /-- `ASSERT_PAGE(addr)` in `reset_page` -/
  | reset_page_align
  /-- `count > 0` in `reset_page` -/
  | reset_page_count
  /-- `bitmap_test(map, index + i)` in `reset_page` -/
  | reset_page_test
  /-- `count > 0` in `alloc_kpage` -/
  | alloc_kpage_count
  /-- `ASSERT_PAGE(vaddr)` in `free_kpage` -/
  | free_kpage_align
  /-- `count > 0` in `free_kpage` -/
  | free_kpage_count
  /-- `index >= map->offset` in `bitmap_test` -/
  | bitmap_test_index
  /-- `bytes < map->length` in `bitmap_test` -/
  | bitmap_test_bytes
  /-- `value == 0 || value == 1` in `bitmap_set` -/
  | bitmap_set_value
  /-- `index >= map->offset` in `bitmap_set` -/
  | bitmap_set_index
  deriving DecidableEq, Repr

/-- The calls of `panic`, by their text. -/
inductive Panic where
  /-- "NO more tasks\\n" in `get_free_task` -/
  | no_more_tasks
  /-- "memory init magic unknow !!! 0x%p\n" in `memory_init` -/
  | memory_magic (magic : UInt32)
  /-- "System memory is %dM too small, at least %dM needed\n" in `memory_init` -/
  | memory_too_small (size needed : UInt32)
  /-- "Out of Memory!!!" in `get_page` -/
  | out_of_memory
  /-- "Scan page fail!!!" in `scan_page` -/
  | scan_page_fail
  deriving DecidableEq, Repr

/-- The ways a modelled function can stop short of its return. -/
inductive Failure where
  /-- `assertion_failure`, which spins forever -/
  | assertion (a : Assertion)
  /-- `panic`, which spins forever -/
  | panic (p : Panic)
  /-- a null pointer was followed: page 0 is never mapped -/
  | null_pointer
  /-- a list sentinel was read as a task -/
  | wild_pointer
  /-- a pointer loop did not reach its end in as many steps as there are cells -/
  | runaway_loop
  deriving DecidableEq, Repr

variable {σ : Type}

def assert (a : Assertion) (exp : Bool) : EStateM Failure σ Unit :=
  if exp then pure () else throw (.assertion a)

@[simp] theorem assert_true (a : Assertion) (s : σ) : (assert a true).run s = .ok () s := rfl

@[simp] theorem assert_false (a : Assertion) (s : σ) :
    (assert a false).run s = .error (.assertion a) s := rfl

theorem assert_run (a : Assertion) (exp : Bool) (s : σ) :
    (assert a exp).run s = if exp then .ok () s else .error (.assertion a) s := by
  cases exp <;> rfl

theorem assert_bind_run {α : Type} (a : Assertion) (exp : Bool) (f : Unit → EStateM Failure σ α) (s : σ) :
    (assert a exp >>= f).run s = if exp then (f ()).run s else .error (.assertion a) s := by
  cases exp <;> rfl

@[simp] theorem throw_run {α : Type} (e : Failure) (s : σ) :
    (throw e : EStateM Failure σ α).run s = .error e s := rfl

end onix
