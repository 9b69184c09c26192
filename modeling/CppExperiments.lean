import CppExperiments.BI.Printing
import CppExperiments.Bencode.Acceptance
import CppExperiments.Bencode.RoundTrip
import CppExperiments.Bitcask.Merge
import CppExperiments.Brainfuck.Nesting
import CppExperiments.Brainfuck.Transpiled
import CppExperiments.Cdiff.Patched
import CppExperiments.Cgit.Canonical
import CppExperiments.Cgit.ChainLinks
import CppExperiments.Cgit.Committing
import CppExperiments.Cgit.Log
import CppExperiments.Cgit.PackReads
import CppExperiments.Cgit.Resolving
import CppExperiments.Cgit.Tracking
import CppExperiments.Cli.CommandLine
import CppExperiments.Cli.Scanning
import CppExperiments.Cli.Shell
import CppExperiments.Cli.Spellcheck
import CppExperiments.Cli.Uniq
import CppExperiments.Cli.XxdReversal
import CppExperiments.Csv.RoundTrip
import CppExperiments.Csv.Strategies
import CppExperiments.Ini.Removal
import CppExperiments.Ini.RoundTrip
import CppExperiments.Json.Escapes
import CppExperiments.Json.Reloading
import CppExperiments.Memory.Collector
import CppExperiments.Memory.Separation
import CppExperiments.Memory.SharedPtr
import CppExperiments.Misc.Eviction
import CppExperiments.Misc.Minesweeper
import CppExperiments.Misc.OrderedRuns
import CppExperiments.Misc.ThreadPool
import CppExperiments.Net.ChunkStream
import CppExperiments.Net.HttpServer
import CppExperiments.Net.PollManager
import CppExperiments.Net.Proxy
import CppExperiments.Net.Reprinting
import CppExperiments.Net.Unchunk
import CppExperiments.Puzzles.Found
import CppExperiments.Puzzles.Generation
import CppExperiments.Puzzles.Queens
import CppExperiments.Puzzles.Skyscrapers
import CppExperiments.Puzzles.Sudoku
import CppExperiments.Redis.Framing
import CppExperiments.Redis.Serving
import CppExperiments.Tar.Checksum
import CppExperiments.Tar.Extraction
import CppExperiments.Torrent.BitField
import CppExperiments.Torrent.Bounds
import CppExperiments.Torrent.Outstanding
import CppExperiments.Torrent.Placement
import CppExperiments.Torrent.Sessions
import CppExperiments.Torrent.TorrentFile
import CppExperiments.Torrent.Wire
import CppExperiments.Url.Issuing
import CppExperiments.Url.Reading
import CppExperiments.Xml.Printed
