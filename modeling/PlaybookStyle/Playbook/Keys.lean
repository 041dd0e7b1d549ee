/-
The keys and words of the playbook language that are not names of modules.
-/

import PlaybookStyle.Text.Search

namespace PlaybookStyle.Playbook

/-- Keys of a task that name no module. -/
def taskKeywords : List String :=
  ["name", "action", "when", "loop", "with_items", "with_dict", "with_file", "with_fileglob",
    "with_first_found", "with_together", "with_nested", "with_random_choice", "with_sequence",
    "with_subelements", "with_template", "with_inventory_hostnames", "with_indexed_items",
    "loop_control", "register", "notify", "listen", "ignore_errors", "ignore_unreachable",
    "changed_when", "failed_when", "tags", "become", "become_method", "become_user",
    "become_flags", "become_exe", "become_password", "collections", "port", "delegate_to",
    "delegate_facts", "local_action", "run_once", "retries", "delay", "until", "async", "poll",
    "environment", "vars", "args", "block", "rescue", "always", "connection", "throttle",
    "timeout", "no_log", "diff", "check_mode", "module_defaults", "any_errors_fatal", "debugger",
    "remote_user", "sudo", "sudo_user", "sudo_pass", "sudo_exe", "sudo_flags", "su", "su_user"]

/-- Keys whose values are conditions, written without braces. -/
def conditionalKeys : List String := ["when", "changed_when", "failed_when", "until"]

/-- Keys that take booleans. -/
def booleanKeys : List String :=
  ["become", "gather_facts", "ignore_errors", "ignore_unreachable", "enabled", "validate_certs",
    "force", "backup", "update_cache", "run_once", "no_log", "check_mode", "diff",
    "any_errors_fatal", "force_handlers", "delegate_facts", "create", "recurse", "follow",
    "remote_src", "daemon_reload", "append", "cacheable", "sudo", "su", "changed", "failed",
    "skipped", "system", "list_files", "unsafe_writes", "executable_only"]

/-- Keys that include a file at the top of a playbook. -/
def playIncludes : List String := ["include", "import_playbook"]

/-- Keys that include a file in a task list. -/
def taskIncludes : List String :=
  ["include", "include_tasks", "import_tasks", "include_vars", "import_playbook"]

/-- Keys of a role that pass no variable. -/
def roleKeywords : List String :=
  ["role", "name", "tags", "when", "become", "become_user", "become_method", "delegate_to",
    "ignore_errors", "environment", "vars", "sudo", "sudo_user", "public", "apply"]

/-- The spellings of booleans, the older ones included. -/
def booleanTokens : List String :=
  ["true", "false", "True", "False", "TRUE", "FALSE", "yes", "no", "Yes", "No", "YES", "NO",
    "on", "off", "On", "Off", "ON", "OFF"]

/-- Keys of a task that hold nested task lists. -/
def nestedKeys : List String := ["block", "rescue", "always"]

/-- The key makes a task loop. -/
def isLoopKey (key : String) : Bool :=
  key == "loop" || key == "loop_control" || Text.startsWith key "with_"

/-- Collections under which the core modules are also published. -/
def coreCollections : List String := ["ansible.builtin.", "ansible.legacy."]

/-- The name of a module without a core collection before it. -/
def shortModuleName (name : String) : String :=
  (coreCollections.findSome? (Text.dropStart? name)).getD name

end PlaybookStyle.Playbook
