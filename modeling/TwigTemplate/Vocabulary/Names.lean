import TwigTemplate.Vocabulary.Basic

/-!
# The vocabulary of templates

The fixed lists of names, each with a short description. Checking and completion read the same
lists, so a name that is offered is never reported as unknown.
-/

namespace TwigTemplate.Vocabulary

/-- Keywords that may start a statement, closing keywords apart. -/
def tags : List Entry :=
  [⟨"if", "Conditional block"⟩,
    ⟨"for", "Loop block"⟩,
    ⟨"set", "Set variable"⟩,
    ⟨"block", "Define template block"⟩,
    ⟨"macro", "Define reusable content"⟩,
    ⟨"embed", "Embed template with blocks"⟩,
    ⟨"apply", "Apply filter to content"⟩,
    ⟨"verbatim", "Display raw content"⟩,
    ⟨"with", "Isolated variable scope"⟩,
    ⟨"else", "Alternative for if"⟩,
    ⟨"elseif", "Additional condition"⟩,
    ⟨"extends", "Inherit from template"⟩,
    ⟨"include", "Include template"⟩,
    ⟨"import", "Import macros"⟩,
    ⟨"from", "Import specific macros"⟩,
    ⟨"use", "Use a template horizontally"⟩,
    ⟨"do", "Evaluate an expression"⟩,
    ⟨"flush", "Flush the output"⟩,
    ⟨"sandbox", "Sandbox untrusted code"⟩,
    ⟨"cache", "Cache a template fragment"⟩,
    ⟨"deprecated", "Mark as deprecated"⟩,
    ⟨"autoescape", "Auto-escape variables"⟩]

/-- Closing keywords. -/
def closers : List Entry :=
  [⟨"endapply", "End apply block"⟩,
    ⟨"endautoescape", "End autoescape block"⟩,
    ⟨"endblock", "End block definition"⟩,
    ⟨"endcache", "End cache block"⟩,
    ⟨"enddeprecated", "End deprecated block"⟩,
    ⟨"endembed", "End embed block"⟩,
    ⟨"endfor", "End for loop"⟩,
    ⟨"endif", "End if statement"⟩,
    ⟨"endmacro", "End macro definition"⟩,
    ⟨"endsandbox", "End sandbox block"⟩,
    ⟨"endset", "End set block"⟩,
    ⟨"endverbatim", "End verbatim block"⟩,
    ⟨"endwith", "End with block"⟩]

/-- Words that appear inside statements but never start one. -/
def keywords : List Entry :=
  [⟨"in", "Used in for loops"⟩,
    ⟨"as", "Used in for loops"⟩,
    ⟨"only", "Include without context"⟩,
    ⟨"ignore missing", "Skip missing files"⟩]

/-- Functions of an expression. -/
def functions : List Entry :=
  [⟨"attribute", "attribute(object, method) - Access dynamic attributes"⟩,
    ⟨"block", "block(name) - Render a block"⟩,
    ⟨"constant", "constant(name) - Get a constant value"⟩,
    ⟨"cycle", "cycle(array, position) - Cycle through values"⟩,
    ⟨"date", "date(date, timezone) - Create a date"⟩,
    ⟨"dump", "dump(var) - Debug a variable"⟩,
    ⟨"html_classes", "html_classes(class1, class2) - Generate HTML classes"⟩,
    ⟨"include", "include(template, variables) - Include a template"⟩,
    ⟨"line", "line(number) - Get current line number"⟩,
    ⟨"max", "max(values) - Get maximum value"⟩,
    ⟨"min", "min(values) - Get minimum value"⟩,
    ⟨"parent", "parent() - Render parent block"⟩,
    ⟨"random", "random(values) - Get random value"⟩,
    ⟨"range", "range(low, high, step) - Create a range"⟩,
    ⟨"source", "source(name) - Get template source"⟩,
    ⟨"template_from_string", "template_from_string(template) - Create template"⟩,
    ⟨"country_select", "country_select(countries) - Generate country selector"⟩,
    ⟨"country_timezones", "country_timezones(country) - Get country timezones"⟩,
    ⟨"format_args_as_text", "format_args_as_text(args) - Format arguments"⟩,
    ⟨"get_debug_type", "get_debug_type(value) - Get debug type of value"⟩,
    ⟨"profiler_dump", "profiler_dump(value) - Dump for profiler"⟩,
    ⟨"language_names", "language_names() - Get available languages"⟩,
    ⟨"locale_names", "locale_names() - Get available locales"⟩,
    ⟨"script_names", "script_names() - Get available scripts"⟩,
    ⟨"timezone_names", "timezone_names() - Get available timezones"⟩,
    ⟨"array_keys", "array_keys(array) - Get all keys of an array"⟩,
    ⟨"array_merge", "array_merge(array1, array2) - Merge two arrays"⟩,
    ⟨"array_slice", "array_slice(array, start, length) - Extract part of array"⟩,
    ⟨"array_filter", "array_filter(array, callback) - Filter array elements"⟩,
    ⟨"array_map", "array_map(callback, array) - Apply callback to array"⟩,
    ⟨"array_reduce", "array_reduce(array, callback) - Reduce array to value"⟩,
    ⟨"form_widget", "form_widget(form) - Render entire form"⟩,
    ⟨"form_errors", "form_errors(form) - Render form errors"⟩,
    ⟨"form_label", "form_label(form) - Render form label"⟩,
    ⟨"form_row", "form_row(form) - Render form row"⟩,
    ⟨"form_rest", "form_rest(form) - Render remaining form"⟩,
    ⟨"form_start", "form_start(form) - Begin form tag"⟩,
    ⟨"form_end", "form_end(form) - End form tag"⟩,
    ⟨"csrf_token", "csrf_token(intention) - Get CSRF token"⟩]

/-- Filters, written after a pipe. -/
def filters : List Entry :=
  [⟨"abs", "Absolute value"⟩,
    ⟨"batch", "Split into batches"⟩,
    ⟨"capitalize", "Capitalize first letter"⟩,
    ⟨"column", "Extract array column"⟩,
    ⟨"convert_encoding", "Convert encoding"⟩,
    ⟨"country_name", "Convert country code to name"⟩,
    ⟨"currency_name", "Convert currency code to name"⟩,
    ⟨"currency_symbol", "Get currency symbol"⟩,
    ⟨"data_uri", "Create data URI"⟩,
    ⟨"date", "Format date"⟩,
    ⟨"date_modify", "Modify date"⟩,
    ⟨"default", "Default value if empty"⟩,
    ⟨"e", "Short alias of escape"⟩,
    ⟨"escape", "HTML escape"⟩,
    ⟨"filter", "Filter array elements"⟩,
    ⟨"first", "Get first item"⟩,
    ⟨"format", "Format string with placeholders"⟩,
    ⟨"format_currency", "Format currency value"⟩,
    ⟨"format_date", "Format date with locale"⟩,
    ⟨"format_datetime", "Format date and time"⟩,
    ⟨"format_number", "Format number with locale"⟩,
    ⟨"format_time", "Format time with locale"⟩,
    ⟨"html_to_markdown", "Convert HTML to markdown"⟩,
    ⟨"humanize", "Humanize text (under_score to Under Score)"⟩,
    ⟨"inky_to_html", "Convert Inky to HTML"⟩,
    ⟨"inline_css", "Inline CSS styles"⟩,
    ⟨"join", "Join array items to string"⟩,
    ⟨"json_encode", "Encode to JSON"⟩,
    ⟨"keys", "Get array keys"⟩,
    ⟨"language_name", "Convert language code to name"⟩,
    ⟨"last", "Get last item"⟩,
    ⟨"length", "Get length of string or array"⟩,
    ⟨"locale_name", "Convert locale code to name"⟩,
    ⟨"lower", "Convert to lowercase"⟩,
    ⟨"map", "Apply function to array"⟩,
    ⟨"markdown", "Convert markdown to HTML"⟩,
    ⟨"markdown_to_html", "Convert markdown to HTML"⟩,
    ⟨"merge", "Merge arrays or add to array"⟩,
    ⟨"nl2br", "Convert newlines to <br>"⟩,
    ⟨"number_format", "Format number"⟩,
    ⟨"raw", "Mark value as safe (no escaping)"⟩,
    ⟨"reduce", "Reduce array to single value"⟩,
    ⟨"replace", "Replace text"⟩,
    ⟨"reverse", "Reverse string or array"⟩,
    ⟨"round", "Round number"⟩,
    ⟨"slice", "Extract slice of array or string"⟩,
    ⟨"slug", "Convert to URL slug"⟩,
    ⟨"sort", "Sort array"⟩,
    ⟨"spaceless", "Remove whitespace between HTML"⟩,
    ⟨"split", "Split string into array"⟩,
    ⟨"striptags", "Strip HTML tags"⟩,
    ⟨"timezone_name", "Convert timezone to name"⟩,
    ⟨"title", "Title case"⟩,
    ⟨"trim", "Trim whitespace"⟩,
    ⟨"u", "Create Symfony UnicodeString"⟩,
    ⟨"upper", "Convert to uppercase"⟩,
    ⟨"url_encode", "Encode URL"⟩,
    ⟨"yaml_dump", "Convert to YAML"⟩,
    ⟨"yaml_encode", "Encode as YAML"⟩]

/-- Tests, written after `is`. -/
def tests : List Entry :=
  [⟨"constant", "Is a constant"⟩,
    ⟨"date", "Is a valid date"⟩,
    ⟨"defined", "Is variable defined"⟩,
    ⟨"divisible by", "Is divisible by a number"⟩,
    ⟨"empty", "Is empty"⟩,
    ⟨"even", "Is even number"⟩,
    ⟨"iterable", "Can be looped"⟩,
    ⟨"null", "Is null"⟩,
    ⟨"odd", "Is odd number"⟩,
    ⟨"same as", "Is the same as"⟩,
    ⟨"none", "Is null"⟩,
    ⟨"starts with", "String starts with"⟩,
    ⟨"ends with", "String ends with"⟩,
    ⟨"in", "Value is in array"⟩,
    ⟨"json", "Is valid JSON"⟩]

end TwigTemplate.Vocabulary
