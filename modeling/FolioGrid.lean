import FolioGrid.Main
import FolioGrid.Proofs.Layout.Room
import FolioGrid.Proofs.Layout.Items
import FolioGrid.Proofs.Dialect.Glosses
import FolioGrid.Proofs.Text.Blank
import FolioGrid.Proofs.Document.Parts
import FolioGrid.Proofs.Document.Items
import FolioGrid.Proofs.GridMarkup.Marks
import FolioGrid.Proofs.Source.RoundTrip
import FolioGrid.Proofs.Text.Characters
import FolioGrid.Proofs.Text.Glyphs
import FolioGrid.Proofs.Markup.Characters
import FolioGrid.Proofs.Layout.Words
import FolioGrid.Proofs.Reading.Characters
import FolioGrid.Proofs.Dialect.Characters
import FolioGrid.Proofs.Document.Characters
import FolioGrid.Proofs.Document.Sequence
import FolioGrid.Proofs.Source.Trailing
import FolioGrid.Proofs.GridMarkup.Decoding
import FolioGrid.Proofs.Dialect.Breaks
import FolioGrid.Proofs.Document.Balance
import FolioGrid.Proofs.Document.Splitting
import FolioGrid.Proofs.Document.Padding
import FolioGrid.Proofs.Document.Rewriting
import FolioGrid.Proofs.Layout.Indents
import FolioGrid.Proofs.Dialect.Indents
import FolioGrid.Proofs.Document.Indents
import FolioGrid.Proofs.Text.GlyphLists
import FolioGrid.Proofs.Layout.Slices
import FolioGrid.Proofs.Layout.Packing
import FolioGrid.Proofs.CommandLine.Files
import FolioGrid.Proofs.Offsets.Conversion
import FolioGrid.Proofs.Layout.Joining
import FolioGrid.Proofs.Layout.Widths
import FolioGrid.Proofs.Dialect.Tokens
import FolioGrid.Proofs.Reading.Collecting
import FolioGrid.Proofs.Reading.Salvage
import FolioGrid.Proofs.Source.Wrapping
import FolioGrid.Proofs.Source.Spreading
import FolioGrid.Proofs.GridMarkup.Preamble
import FolioGrid.Proofs.Source.Restamping
import FolioGrid.Proofs.Document.Fraying
import FolioGrid.Proofs.Document.Comments
import FolioGrid.Proofs.Layout.Pairing
import FolioGrid.Proofs.Markup.OptionLists
import FolioGrid.Proofs.Markup.Style
import FolioGrid.Proofs.Markup.Unwrapping
import FolioGrid.Proofs.Markup.Delimiting
import FolioGrid.Proofs.Text.Cleaning
import FolioGrid.Proofs.Text.Trimming
